import JobConfig.Project.Load
import JobConfig.Proofs.ByteOrder
import JobConfig.Proofs.Entries
import Mathlib.Data.List.Sort

/-!
# Listings of a directory

The entries of a folder come in the order in which they are listed. What a directory holds is what
stands at each path in it (`FileTree.at?`), and two listings of one directory agree on that
(`FileTree.SameFiles`). The entries of a folder sorted by name are then the same in both
(`FileTree.listing_eq`): they are sorted by the bytes of their names (`FileTree.listing_pairwise`),
and they are what stands in the folder (`FileTree.mem_listing_iff`). There is one list of the
definitions in a folder that has them by name (`FileTree.ByName.eq`), and a definition whose name is
the greatest is put at its end (`FileTree.definitions_put`).
-/

namespace JobConfig.FileTree

/-! ## What a directory holds -/

/-- What stands at a path below a directory, if there is one. -/
def at? : Option FileTree → List String → Option FileTree
  | t, [] => t
  | t, name :: path => at? (t.bind (·.child? name)) path

/-- The text of a file, if it has one; nothing for a folder. -/
def kind : FileTree → Option (Option String)
  | .file text => some text
  | .folder _ => none

/-- The same stands at each path of two directories: folders, and files with the same text. -/
def SameFiles (d d' : Option FileTree) : Prop :=
  ∀ path, (at? d path).map kind = (at? d' path).map kind

/-- No folder of a directory has two entries of one name. -/
def DistinctNames (d : Option FileTree) : Prop :=
  ∀ path t, at? d path = some t → (entryKeys t.entries).Nodup

variable {d d' folder folder' : Option FileTree} {t : FileTree} {name : String}

theorem text?_eq_join_kind (t : FileTree) : t.text? = t.kind.join := by
  cases t <;> rfl

theorem at?_append (d : Option FileTree) (path path' : List String) :
    at? d (path ++ path') = at? (at? d path) path' := by
  induction path generalizing d with
  | nil => rfl
  | cons name path ih => exact ih _

/-- Two listings of a directory are listings of each of its folders. -/
theorem SameFiles.at? (h : SameFiles d d') (path : List String) :
    SameFiles (at? d path) (at? d' path) := by
  intro path'
  rw [← at?_append, ← at?_append]
  exact h _

theorem SameFiles.map_text? (h : SameFiles d d') : d.map text? = d'.map text? := by
  have hk := congrArg (Option.map Option.join) (h [])
  simp only [Option.map_map, Function.comp_def, ← text?_eq_join_kind] at hk
  exact hk

theorem DistinctNames.at? (h : DistinctNames d) (path : List String) :
    DistinctNames (at? d path) := by
  intro path' t ht
  rw [← at?_append] at ht
  exact h _ t ht

theorem at?_none (path : List String) : at? none path = none := by
  induction path with
  | nil => rfl
  | cons name path ih => exact ih

/-- A folder has distinct names if its own are distinct and its folders have distinct names. -/
theorem distinctNames_folder {es : List (String × FileTree)} (h : (entryKeys es).Nodup)
    (hes : ∀ e ∈ es, DistinctNames (some e.2)) : DistinctNames (some (.folder es)) := by
  intro path t ht
  cases path with
  | nil => exact Option.some.inj ht ▸ h
  | cons name path =>
    cases hv : valueAt? name es with
    | none =>
      have hn : at? none path = some t := hv ▸ ht
      rw [at?_none] at hn
      cases hn
    | some u => exact hes _ (mem_of_valueAt? hv) path t (hv ▸ ht)

theorem distinctNames_file (text : Option String) : DistinctNames (some (.file text)) := by
  intro path t ht
  cases path with
  | nil => exact Option.some.inj ht ▸ List.nodup_nil
  | cons name path =>
    have hn : at? none path = some t := ht
    rw [at?_none] at hn
    cases hn

theorem distinctNames_files (es : List (String × Option String)) (h : (es.map fun e => e.1).Nodup) :
    DistinctNames (some (.folder (es.map fun e => (e.1, .file e.2)))) := by
  refine distinctNames_folder ?_ fun e he => ?_
  · rw [entryKeys, List.map_map]
    exact h
  · obtain ⟨f, -, rfl⟩ := List.mem_map.mp he
    exact distinctNames_file f.2

/-- The entries of a folder can be listed in another order. -/
theorem sameFiles_of_perm {es fs : List (String × FileTree)} (hd : (entryKeys es).Nodup)
    (h : es.Perm fs) : SameFiles (some (.folder es)) (some (.folder fs)) := by
  have hd' : (entryKeys fs).Nodup := (h.map Prod.fst).nodup_iff.mp hd
  have hv (name : String) : valueAt? name es = valueAt? name fs := by
    ext u
    exact ⟨fun hu => valueAt?_of_mem hd' (h.mem_iff.mp (mem_of_valueAt? hu)),
      fun hu => valueAt?_of_mem hd (h.mem_iff.mpr (mem_of_valueAt? hu))⟩
  intro path
  cases path with
  | nil => rfl
  | cons name path => exact congrArg (fun u => (at? u path).map kind) (hv name)

/-- So can those of the folders in it. -/
theorem sameFiles_of_forall₂ {es fs : List (String × FileTree)}
    (h : List.Forall₂ (fun e f => f.1 = e.1 ∧ SameFiles (some e.2) (some f.2)) es fs) :
    SameFiles (some (.folder es)) (some (.folder fs)) := by
  intro path
  cases path with
  | nil => rfl
  | cons name path =>
    show (at? (valueAt? name es) path).map kind = (at? (valueAt? name fs) path).map kind
    have hv := valueAt?_of_forall₂ (R := fun t u => SameFiles (some t) (some u)) h name
    generalize valueAt? name es = t at hv ⊢
    generalize valueAt? name fs = u at hv ⊢
    cases hv with
    | none => rfl
    | some hs => exact hs path

/-! ## Sorting -/

theorem insertSorted_perm (e : String × FileTree) (es : List (String × FileTree)) :
    (insertSorted e es).Perm (e :: es) := by
  induction es with
  | nil => exact .refl _
  | cons f es ih =>
    rw [insertSorted]
    split
    · exact (ih.cons f).trans (.swap e f es)
    · exact .refl _

/-- Sorting changes the order of entries and nothing else. -/
theorem sorted_perm (t : FileTree) : t.sorted.Perm t.entries := by
  unfold sorted
  induction t.entries with
  | nil => exact .nil
  | cons e es ih => exact (insertSorted_perm e _).trans (ih.cons e)

theorem insertSorted_pairwise {e : String × FileTree} {es : List (String × FileTree)}
    (h : es.Pairwise fun e f => e.1 ≤ f.1) : (insertSorted e es).Pairwise fun e f => e.1 ≤ f.1 := by
  induction es with
  | nil => exact List.pairwise_singleton ..
  | cons f es ih =>
    obtain ⟨hf, hes⟩ := List.pairwise_cons.mp h
    rw [insertSorted]
    split
    · rename_i hfe
      refine List.pairwise_cons.mpr ⟨fun x hx => ?_, ih hes⟩
      rcases List.mem_cons.mp ((insertSorted_perm e es).mem_iff.mp hx) with rfl | hx
      · exact hfe.le
      · exact hf x hx
    · rename_i hfe
      have hef : e.1 ≤ f.1 := le_of_not_gt hfe
      refine List.pairwise_cons.mpr ⟨fun x hx => ?_, h⟩
      rcases List.mem_cons.mp hx with rfl | hx
      · exact hef
      · exact hef.trans (hf x hx)

theorem sorted_pairwise (t : FileTree) : t.sorted.Pairwise fun e f => e.1 ≤ f.1 := by
  unfold sorted
  induction t.entries with
  | nil => exact .nil
  | cons e es ih => exact insertSorted_pairwise ih

/-! ## Listings -/

/-- The names in a folder, sorted, and the texts of the files. -/
def listing (folder : Option FileTree) : List (String × Option String) :=
  (folder.getD .emptyFolder).sorted.map fun e => (e.1, e.2.text?)

/-- The definitions in a folder: their names, sorted, and the texts of those that can be read. -/
def definitions (folder : Option FileTree) : List (String × Option String) :=
  (listing folder).filter fun e => isDefinitionName e.1

theorem definitions_eq (folder : Option FileTree) : definitions folder =
    ((folder.getD .emptyFolder).sorted.filter fun e => isDefinitionName e.1).map
      fun e => (e.1, e.2.text?) := by
  rw [definitions, listing, List.filter_map]
  rfl

theorem DistinctNames.nodup (h : DistinctNames folder) :
    (entryKeys (folder.getD .emptyFolder).entries).Nodup := by
  cases folder with
  | none => exact List.nodup_nil
  | some t => exact h [] t rfl

section Names

variable (h : (entryKeys (folder.getD .emptyFolder).entries).Nodup)
include h

/-- The names in a folder are in the order of their bytes. -/
theorem listing_pairwise :
    (listing folder).Pairwise fun e f => Utf8.bytes e.1 < Utf8.bytes f.1 := by
  have hn : (entryKeys (folder.getD .emptyFolder).sorted).Nodup :=
    ((sorted_perm _).map Prod.fst).nodup_iff.mpr h
  rw [listing, List.pairwise_map]
  have hs := (sorted_pairwise (folder.getD .emptyFolder)).and (List.pairwise_map.mp hn)
  exact hs.imp fun ⟨hle, hne⟩ => (Utf8.lt_iff_bytes_lt ..).mp (lt_of_le_of_ne hle hne)

/-- What is listed stands in the folder. -/
theorem mem_listing_iff {text : Option String} :
    (name, text) ∈ listing folder ↔ (at? folder [name]).map text? = some text := by
  cases folder with
  | none => simp [listing, at?, emptyFolder, sorted, entries]
  | some t =>
    have hm : (name, text) ∈ listing (some t) ↔ ∃ u, (name, u) ∈ t.entries ∧ u.text? = text := by
      simp [listing, (sorted_perm t).mem_iff]
    have hv (u : FileTree) : (name, u) ∈ t.entries ↔ t.child? name = some u :=
      ⟨valueAt?_of_mem h, mem_of_valueAt?⟩
    simp only [hm, hv, at?, Option.bind_some, Option.map_eq_some_iff]

/-- The files are the definitions in a folder, in the order of the bytes of their names. -/
structure ByName (folder : Option FileTree) (files : List (String × Option String)) : Prop where
  sorted : files.Pairwise fun e f => Utf8.bytes e.1 < Utf8.bytes f.1
  mem_iff : ∀ name text, (name, text) ∈ files ↔
    isDefinitionName name = true ∧ (at? folder [name]).map text? = some text

theorem byName_definitions : ByName folder (definitions folder) where
  sorted := (listing_pairwise h).filter _
  mem_iff := fun name text => by rw [definitions, List.mem_filter, mem_listing_iff h, and_comm]

end Names

/-- There is one order by name. -/
theorem ByName.eq {files files' : List (String × Option String)} (h : ByName folder files)
    (h' : ByName folder files') : files = files' :=
  h.sorted.eq_of_mem_iff h'.sorted fun e => (h.mem_iff e.1 e.2).trans (h'.mem_iff e.1 e.2).symm

/-- Sorted by name, the entries of a folder do not depend on how it is listed. -/
theorem listing_eq (h : SameFiles folder folder') (hd : DistinctNames folder)
    (hd' : DistinctNames folder') : listing folder = listing folder' := by
  refine (listing_pairwise hd.nodup).eq_of_mem_iff (listing_pairwise hd'.nodup) fun e => ?_
  rw [mem_listing_iff hd.nodup, mem_listing_iff hd'.nodup, (h.at? [e.1]).map_text?]

/-! ## Putting a file into a directory -/

@[simp] theorem put_file (text : Option String) (old : FileTree) :
    put (.file text) [] old = .file text := by
  cases old <;> rfl

theorem at?_getD (d : Option FileTree) (name : String) :
    at? d [name] = (d.getD .emptyFolder).child? name := by
  cases d <;> rfl

/-- Putting something below a name changes what stands there and nothing beside it. -/
theorem child?_put (new old : FileTree) (path : List String) (name other : String) :
    (put new (name :: path) old).child? other =
      if name = other then some (put new path ((old.child? name).getD .emptyFolder))
      else old.child? other :=
  valueAt?_setEntry name other _ old.entries

/-- What stands in a directory after something has been put below a name. -/
theorem at?_put (d : Option FileTree) (new : FileTree) (path : List String) (name other : String) :
    at? (some (put new (name :: path) (d.getD .emptyFolder))) [other] =
      if name = other then some (put new path ((at? d [name]).getD .emptyFolder))
      else at? d [other] := by
  rw [at?_getD, Option.getD_some, child?_put, at?_getD, at?_getD]

theorem nodup_put (hd : DistinctNames folder) (name : String) (new : FileTree) :
    (entryKeys ((some (put new [name] (folder.getD .emptyFolder))).getD
      .emptyFolder).entries).Nodup :=
  nodup_setEntry name _ hd.nodup

/-- What is put under a name that is not that of a definition changes none of the definitions. -/
theorem definitions_put_of_not (hd : DistinctNames folder) (hn : isDefinitionName name = false)
    (new : FileTree) :
    definitions (some (put new [name] (folder.getD .emptyFolder))) = definitions folder := by
  have hb := byName_definitions hd.nodup
  have hb' := byName_definitions (nodup_put hd name new)
  refine hb'.eq ⟨hb.sorted, fun other text => ?_⟩
  rw [hb.mem_iff, at?_put]
  by_cases ho : name = other
  · simp [← ho, hn]
  · rw [if_neg ho]

/-- A definition that is put into a folder has a place among the others, whatever it is that is put;
if it is new there the others are those that have been there. -/
theorem exists_definitions_put (hd : DistinctNames folder) (hn : isDefinitionName name = true) :
    ∃ before after,
      (∀ new t, at? (some (put new [name] (folder.getD .emptyFolder))) [name] = some t →
        definitions (some (put new [name] (folder.getD .emptyFolder))) =
          before ++ (name, t.text?) :: after) ∧
      (at? folder [name] = none → definitions folder = before ++ after) := by
  have hb (new : FileTree) := byName_definitions (nodup_put hd name new)
  obtain ⟨before, after, hs⟩ := List.append_of_mem <|
    ((hb (.file none)).mem_iff name none).mpr ⟨hn, by simp [at?_put, text?]⟩
  -- The order is one of the names, so it does not matter what stands under them.
  have hsorted (text : Option String) : (before ++ (name, text) :: after).Pairwise
      fun e f => Utf8.bytes e.1 < Utf8.bytes f.1 := by
    have h := (hb (.file none)).sorted
    rw [hs] at h
    simpa [List.pairwise_append] using h
  have hrest : (before ++ after).Sublist (before ++ (name, none) :: after) :=
    (List.Sublist.refl _).append (List.sublist_cons_self ..)
  have hother {other : String} (ho : name ≠ other) (text : Option String) :
      (other, text) ∈ before ++ after ↔
        isDefinitionName other = true ∧ (at? folder [other]).map text? = some text := by
    have hm := (hb (.file none)).mem_iff other text
    rw [hs, at?_put, if_neg ho] at hm
    rw [← hm]
    simp [Ne.symm ho]
  have hname (text : Option String) : (name, text) ∉ before ++ after := by
    have hne : (before ++ (name, none) :: after).Pairwise fun e f => e.1 ≠ f.1 := by
      refine (hsorted none).imp fun {e f} hlt he => ?_
      rw [he] at hlt
      exact List.lt_irrefl _ hlt
    have h := (List.pairwise_middle fun he => Ne.symm he).mp hne
    exact fun hm => (List.pairwise_cons.mp h).1 _ hm rfl
  refine ⟨before, after, fun new t ht => (hb new).eq ⟨hsorted _, fun other text => ?_⟩,
    fun hnew => (byName_definitions hd.nodup).eq ⟨(hsorted none).sublist hrest,
      fun other text => ?_⟩⟩
  · have hm : (other, text) ∈ before ++ (name, t.text?) :: after ↔
        (other, text) = (name, t.text?) ∨ (other, text) ∈ before ++ after := by
      rw [List.perm_middle.mem_iff, List.mem_cons]
    rw [hm]
    by_cases ho : name = other
    · subst ho
      rw [ht]
      simp [hn, hname text, eq_comm]
    · rw [at?_put, if_neg ho, hother ho text, or_iff_right]
      exact fun he => ho (congrArg Prod.fst he).symm
  · by_cases ho : name = other
    · subst ho
      simp [hnew, hname text]
    · exact hother ho text

/-- A definition that is put into a folder comes last if its name is the greatest. -/
theorem definitions_put (hd : DistinctNames folder) (hn : isDefinitionName name = true)
    (hlast : ∀ e ∈ definitions folder, Utf8.bytes e.1 < Utf8.bytes name) (text : Option String) :
    definitions (some (put (.file text) [name] (folder.getD .emptyFolder))) =
      definitions folder ++ [(name, text)] := by
  have hb := byName_definitions hd.nodup
  refine (byName_definitions (nodup_put hd name (.file text))).eq ⟨?_, fun other text' => ?_⟩
  · rw [List.pairwise_append]
    exact ⟨hb.sorted, List.pairwise_singleton .., fun e he f hf =>
      List.mem_singleton.mp hf ▸ hlast e he⟩
  · rw [at?_put, put_file, List.mem_append, List.mem_singleton]
    by_cases ho : name = other
    · subst ho
      have hnot : (name, text') ∉ definitions folder := fun h => List.lt_irrefl _ (hlast _ h)
      simp [hn, hnot, text?, eq_comm]
    · have hne : (other, text') ≠ (name, text) := fun h => ho (congrArg Prod.fst h).symm
      rw [if_neg ho, hb.mem_iff, or_iff_left hne]

end JobConfig.FileTree

import JobConfig.Proofs.LoadOrder

/-!
# Entries that are no definitions

A project directory has two folders of definitions (`Folder`). Beside the definitions they may hold
entries that are none: folders, and files with other names (`FileTree.Bystander`). A new entry whose
name is not that of a definition makes no difference to loading (`items_putIn_of_not`). A new one
that has such a name is taken for a definition even if it is a folder (`exists_items_putIn`), and
then it cannot be read. So a new entry that is no definition leaves a project as it is exactly if
its name is not that of one (`loadProject_putIn_iff`).
-/

namespace JobConfig

open FileTree

/-! ## Folders of definitions -/

/-- A folder whose entries are taken for definitions by their names. -/
inductive Folder where
  | executors
  | jobs
deriving DecidableEq

namespace Folder

def name : Folder → String
  | executors => "executors"
  | jobs => "jobs"

/-- What stands in front of the names of the entries in paths. -/
def base : Folder → String
  | executors => "executors/"
  | jobs => "jobs/"

/-- What loading looks at in an entry of the folder. -/
def item : Folder → String → Option String → Item
  | executors => .executor
  | jobs => .job

/-- The items of the folder in a project directory. -/
def items (f : Folder) (base : String) (d : Option FileTree) : List Item :=
  (definitions (at? d [f.name])).map fun e => f.item (base ++ f.base ++ e.1) e.2

end Folder

/-- An entry that is no definition: a folder, or anything under a name that is not that of one. -/
inductive FileTree.Bystander (name : String) : FileTree → Prop where
  | folder (entries : List (String × FileTree)) : Bystander name (.folder entries)
  | other {t : FileTree} (h : isDefinitionName name = false) : Bystander name t

/-- The directory with something put into one of its folders of definitions. -/
def FileTree.putIn (d : Option FileTree) (f : Folder) (name : String) (t : FileTree) : FileTree :=
  put t [f.name, name] (d.getD .emptyFolder)

variable {d : Option FileTree} {f : Folder} {name : String} {t : FileTree} {base : String}

/-! ## Putting an entry into a folder -/

theorem items_eq_append (base : String) (d : Option FileTree) :
    items base d = .settings (base ++ "config.toml") ((at? d ["config.toml"]).map text?) ::
      (Folder.executors.items base d ++ Folder.jobs.items base d) :=
  rfl

theorem at?_putIn (d : Option FileTree) (f : Folder) (name : String) (t : FileTree)
    (other : String) : at? (some (putIn d f name t)) [other] =
      if f.name = other then some (put t [name] ((at? d [f.name]).getD .emptyFolder))
      else at? d [other] :=
  at?_put d t [name] f.name other

/-- What stands at the place of an entry that is put into a folder. -/
theorem at?_putIn_self (d : Option FileTree) (f : Folder) (name : String) (t : FileTree) :
    at? (some (putIn d f name t)) [f.name, name] =
      some (put t [] ((at? d [f.name, name]).getD .emptyFolder)) := by
  show at? (at? (some (putIn d f name t)) [f.name]) [name] = _
  rw [at?_putIn, if_pos rfl, at?_put, if_pos rfl]
  rfl

/-- A file replaces what has been there. -/
theorem at?_putIn_file (d : Option FileTree) (f : Folder) (name : String) (text : Option String) :
    at? (some (putIn d f name (.file text))) [f.name, name] = some (.file text) := by
  rw [at?_putIn_self, put_file]

/-- Something new is what is put there. -/
theorem at?_putIn_new (h : at? d [f.name, name] = none) (t : FileTree) :
    at? (some (putIn d f name t)) [f.name, name] = some t := by
  rw [at?_putIn_self, h]
  rcases t with text | - | es <;> rfl

/-- The settings stay as they are. -/
theorem at?_settings_putIn (d : Option FileTree) (f : Folder) (name : String) (t : FileTree) :
    at? (some (putIn d f name t)) ["config.toml"] = at? d ["config.toml"] := by
  have hn : f.name ≠ "config.toml" := by cases f <;> decide
  rw [at?_putIn, if_neg hn]

/-- So does the other folder. -/
theorem items_putIn_of_ne (base : String) (d : Option FileTree) (name : String) (t : FileTree)
    {g : Folder} (h : f ≠ g) : g.items base (some (putIn d f name t)) = g.items base d := by
  have hn : f.name ≠ g.name := by
    revert h
    cases f <;> cases g <;> decide
  rw [Folder.items, at?_putIn, if_neg hn, Folder.items]

/-- An entry whose name is not that of a definition is not looked at. -/
theorem items_putIn_of_not (hd : DistinctNames d) (hn : isDefinitionName name = false) :
    items base (some (putIn d f name t)) = items base d := by
  have hg (g : Folder) : g.items base (some (putIn d f name t)) = g.items base d := by
    by_cases h : f = g
    · subst h
      rw [Folder.items, at?_putIn, if_pos rfl, definitions_put_of_not (hd.at? _) hn, Folder.items]
    · exact items_putIn_of_ne base d name t h
  rw [items_eq_append, items_eq_append, at?_settings_putIn, hg, hg]

/-- An entry with the name of a definition has a place among the items of its folder, whatever it
is; if it is new the others are those that have been there. -/
theorem Folder.exists_items_putIn (base : String) (hd : DistinctNames d) (f : Folder)
    (hn : isDefinitionName name = true) :
    let item (e : String × Option String) : Item := f.item (base ++ f.base ++ e.1) e.2
    ∃ before after : List (String × Option String),
      (∀ t, at? (some (putIn d f name t)) [f.name, name] = some t →
        f.items base (some (putIn d f name t)) =
          before.map item ++ item (name, t.text?) :: after.map item) ∧
      (at? d [f.name, name] = none → f.items base d = before.map item ++ after.map item) := by
  intro item
  obtain ⟨before, after, hput, hold⟩ := exists_definitions_put (hd.at? [f.name]) hn
  refine ⟨before, after, fun t ht => ?_, fun hnew => ?_⟩
  · have hfolder : at? (some (putIn d f name t)) [f.name] =
        some (put t [name] ((at? d [f.name]).getD .emptyFolder)) := by
      rw [at?_putIn, if_pos rfl]
    have ht' : at? (at? (some (putIn d f name t)) [f.name]) [name] = some t := ht
    rw [hfolder] at ht'
    rw [Folder.items, hfolder, hput t t ht', List.map_append, List.map_cons]
  · rw [Folder.items, hold hnew, List.map_append]

/-- What is loaded after the items of the folder. -/
def Folder.rest : Folder → String → Option FileTree → List Item
  | executors, base, d => jobs.items base d
  | jobs, _, _ => []

/-- The file of a definition is one item, between others that do not depend on it. -/
theorem exists_items_putIn_file (base : String) (hd : DistinctNames d) (f : Folder)
    (hn : isDefinitionName name = true) :
    ∃ (front : List Item) (after : List (String × Option String)), ∀ text : String,
      items base (some (putIn d f name (.file (some text)))) =
        front ++ f.item (base ++ f.base ++ name) (some text) ::
          (after.map (fun e => f.item (base ++ f.base ++ e.1) e.2) ++ f.rest base d) := by
  obtain ⟨before, after, hput, -⟩ := f.exists_items_putIn base hd hn
  let settings : Item := .settings (base ++ "config.toml") ((at? d ["config.toml"]).map text?)
  let front := before.map fun e => f.item (base ++ f.base ++ e.1) e.2
  cases f with
  | executors =>
    refine ⟨settings :: front, after, fun text => ?_⟩
    have hg := items_putIn_of_ne base d name (.file (some text))
      (by decide : Folder.executors ≠ .jobs)
    rw [items_eq_append, at?_settings_putIn, hg, hput _ (at?_putIn_file ..), List.append_assoc]
    rfl
  | jobs =>
    refine ⟨settings :: (Folder.executors.items base d ++ front), after, fun text => ?_⟩
    have hg := items_putIn_of_ne base d name (.file (some text))
      (by decide : Folder.jobs ≠ .executors)
    rw [items_eq_append, at?_settings_putIn, hg, hput _ (at?_putIn_file ..), Folder.rest,
      List.append_nil, List.cons_append, List.append_assoc]
    rfl

/-- A new entry with the name of a definition is one more item. -/
theorem exists_items_putIn (base : String) (hd : DistinctNames d)
    (hn : isDefinitionName name = true) (hnew : at? d [f.name, name] = none) (t : FileTree) :
    ∃ front back, items base d = front ++ back ∧
      items base (some (putIn d f name t)) =
        front ++ f.item (base ++ f.base ++ name) t.text? :: back := by
  obtain ⟨before, after, hput, hold⟩ := f.exists_items_putIn base hd hn
  rw [items_eq_append, items_eq_append, at?_settings_putIn]
  cases f with
  | executors =>
    have hg := items_putIn_of_ne base d name t (by decide : Folder.executors ≠ .jobs)
    rw [hg, hold hnew, hput t (at?_putIn_new hnew t), List.append_assoc, List.append_assoc,
      List.cons_append]
    exact ⟨_ :: before.map _, _, rfl, rfl⟩
  | jobs =>
    have hg := items_putIn_of_ne base d name t (by decide : Folder.jobs ≠ .executors)
    rw [hg, hold hnew, hput t (at?_putIn_new hnew t), ← List.append_assoc, ← List.append_assoc]
    exact ⟨_ :: (_ ++ before.map _), _, rfl, rfl⟩

/-! ## Loading -/

theorem Folder.load_item_none (f : Folder) (path : String) (p : Project) :
    (f.item path none).load p = .error (.unreadable path) := by
  cases f <;> rfl

/-- A folder with the name of a definition keeps a project from being loaded. -/
theorem outcome_putIn_folder (hd : DistinctNames d) (hn : isDefinitionName name = true)
    (hnew : at? d [f.name, name] = none) (ht : t.text? = none) {p : Project}
    (hp : (loadProject base d).outcome = .ok p) :
    (loadProject base (some (putIn d f name t))).outcome =
      .error (.unreadable (base ++ f.base ++ name)) := by
  obtain ⟨front, back, hold, hput⟩ := exists_items_putIn base hd hn hnew t
  rw [outcome_loadProject, hold, List.foldlM_append, bind_eq_ok] at hp
  obtain ⟨p', hp', -⟩ := hp
  rw [outcome_loadProject, hput, ht, List.foldlM_append, hp', ok_bind, List.foldlM_cons,
    Folder.load_item_none, error_bind]

/-- A new entry in a folder of definitions whose name is not that of a definition makes no
difference to loading, be it a file or a folder. So one that is no definition leaves a project that
can be loaded as it is, with its settings, executors, references and jobs, exactly if its name is
not that of a definition: a folder with such a name is the file that cannot be read. -/
theorem loadProject_putIn_iff (base : String) {d : Option FileTree} (hd : DistinctNames d)
    (f : Folder) (name : String) (hnew : at? d [f.name, name] = none) (t : FileTree) :
    let d' := some (putIn d f name t)
    (isDefinitionName name = false →
      (loadProject base d').outcome = (loadProject base d).outcome) ∧
    ∀ p, t.Bystander name → (loadProject base d).outcome = .ok p →
      ((loadProject base d').outcome = .ok p ↔ isDefinitionName name = false) ∧
      (isDefinitionName name = true →
        (loadProject base d').outcome = .error (.unreadable (base ++ f.base ++ name))) := by
  intro d'
  have hother (hn : isDefinitionName name = false) :
      (loadProject base d').outcome = (loadProject base d).outcome := by
    rw [outcome_loadProject, outcome_loadProject, items_putIn_of_not hd hn]
  refine ⟨hother, fun p ht hp => ?_⟩
  have hfolder (hn : isDefinitionName name = true) :
      (loadProject base d').outcome = .error (.unreadable (base ++ f.base ++ name)) := by
    refine outcome_putIn_folder hd hn hnew ?_ hp
    cases ht with
    | folder entries => rfl
    | other h => cases hn.symm.trans h
  refine ⟨⟨fun hp' => ?_, fun hn => (hother hn).trans hp⟩, hfolder⟩
  by_contra hn
  cases (hfolder (Bool.eq_true_of_not_eq_false hn)).symm.trans hp'

/-- A folder that is called like a definition, and has nothing in it, keeps a project from being
loaded that is loaded without it. -/
theorem not_loaded_beside_folder :
    let build : FileTree := .file (some "name: build\nexecutor: node\n")
    let d : FileTree := .folder [("jobs", .folder [("build.yaml", build)])]
    (∃ p, (loadProject "" (some d)).outcome = .ok p) ∧ at? (some d) ["jobs", "old.yaml"] = none ∧
      (FileTree.folder []).Bystander "old.yaml" ∧
      (loadProject "" (some (putIn (some d) .jobs "old.yaml" (.folder [])))).outcome =
        .error (.unreadable "jobs/old.yaml") := by
  intro build d
  refine ⟨failure?_eq_none_iff.mp (by decide +kernel), rfl, .folder [], ?_⟩
  exact failure?_eq_some_iff.mp (by decide +kernel)

/-- A folder of old definitions and a definition in upper case are passed over, also where there has
been no folder of executors. -/
theorem loadProject_putIn_iff_notes :
    let build : FileTree := .file (some "name: build\nexecutor: node\n")
    let d : FileTree := .folder [("jobs", .folder [("build.yaml", build)])]
    let old : FileTree := .folder [("lint.yaml", build)]
    let node : FileTree := .file (some "name: node")
    ∃ p, (loadProject "" (some d)).outcome = .ok p ∧ old.Bystander "old" ∧
      node.Bystander "node.YAML" ∧
      (loadProject "" (some (putIn (some d) .jobs "old" old))).outcome = .ok p ∧
      (loadProject "" (some (putIn (some d) .executors "node.YAML" node))).outcome = .ok p ∧
      (loadProject "" (some (putIn (some d) .jobs "old.yml" old))).outcome =
        .error (.unreadable "jobs/old.yml") := by
  intro build d old node
  have hd : DistinctNames (some d) := by
    refine distinctNames_folder (by decide) (List.forall_mem_singleton.mpr ?_)
    exact distinctNames_files [("build.yaml", some "name: build\nexecutor: node\n")] (by decide)
  obtain ⟨p, hp⟩ : ∃ p, (loadProject "" (some d)).outcome = .ok p :=
    failure?_eq_none_iff.mp (by decide +kernel)
  obtain ⟨-, hold⟩ := loadProject_putIn_iff "" hd .jobs "old" rfl old
  obtain ⟨hnode, -⟩ := loadProject_putIn_iff "" hd .executors "node.YAML" rfl node
  obtain ⟨-, hyml⟩ := loadProject_putIn_iff "" hd .jobs "old.yml" rfl old
  refine ⟨p, hp, .folder _, .other (by decide), ?_, ?_, ?_⟩
  · exact (hold p (.folder _) hp).1.mpr (by decide)
  · exact (hnode (by decide)).trans hp
  · exact (hyml p (.folder _) hp).2 (by decide)

end JobConfig

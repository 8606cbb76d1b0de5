import JobConfig.Proofs.Listing
import JobConfig.Proofs.Loading

/-!
# The order of loading

A project directory is loaded item by item (`outcome_loadProject`): first the settings, then the
definitions of executors and then those of jobs, each in the order of the bytes of their file names
(`items`). The items are told by what stands at the paths of the directory, not by how its folders
are listed. Each definition adds an executor or a job to those that are there, and what is there
stays (`Project.addExecutor_eq_ok`, `Project.addJob_keeps`). Loading fails at the first item that
fails, so what comes after it makes no difference (`loadProject_byName`).
-/

namespace JobConfig

open FileTree

/-! ## Items -/

/-- What loading looks at, at a path. -/
inductive Item where
  /-- The settings: the text of their file, if there is one and it can be read. -/
  | settings (path : String) (text : Option (Option String))
  /-- The definition of an executor: the text of the file, if it can be read. -/
  | executor (path : String) (text : Option String)
  /-- The definition of a job. -/
  | job (path : String) (text : Option String)

/-- The project with what an item says. -/
def Item.load (p : Project) : Item → Except LoadError Project
  | settings path text => do
    let settings ← readSettings path (text.map .file)
    return { p with settings }
  | executor path text => do
    let d ← readDefinition ExecutorDefinition.read path (.file text)
    p.addExecutor path d
  | job path text => do
    let d ← readDefinition JobDefinition.read path (.file text)
    p.addJob path d

/-- The items of a project directory in the order of loading. -/
def items (base : String) (d : Option FileTree) : List Item :=
  .settings (base ++ "config.toml") ((at? d ["config.toml"]).map text?) ::
    ((definitions (at? d ["executors"])).map fun e =>
      .executor (base ++ "executors/" ++ e.1) e.2) ++
    (definitions (at? d ["jobs"])).map fun e => .job (base ++ "jobs/" ++ e.1) e.2

theorem readSettings_eq (path : String) (t : Option FileTree) :
    readSettings path t = readSettings path ((t.map text?).map .file) := by
  cases t <;> rfl

/-- Loading runs through the settings, the executors and the jobs. -/
theorem loadProject_eq_bind (base : String) (d : Option FileTree) :
    (loadProject base d).outcome = (do
      let settings ← readSettings (base ++ "config.toml") (at? d ["config.toml"])
      let p ← addAll ExecutorDefinition.read Project.addExecutor ⟨settings, ∅, [], []⟩
        (definitionFiles (base ++ "executors/") ((at? d ["executors"]).getD .emptyFolder))
      addAll JobDefinition.read Project.addJob p
        (definitionFiles (base ++ "jobs/") ((at? d ["jobs"]).getD .emptyFolder))) := by
  cases d with
  | none => rfl
  | some dir =>
    show (loadProject base (some dir)).outcome = do
      let settings ← readSettings (base ++ "config.toml") (dir.child? "config.toml")
      let p ← addAll ExecutorDefinition.read Project.addExecutor ⟨settings, ∅, [], []⟩
        (definitionFiles (base ++ "executors/") ((dir.child? "executors").getD .emptyFolder))
      addAll JobDefinition.read Project.addJob p
        (definitionFiles (base ++ "jobs/") ((dir.child? "jobs").getD .emptyFolder))
    simp only [loadProject]
    cases readSettings (base ++ "config.toml") (dir.child? "config.toml") with
    | error e => rfl
    | ok settings =>
      simp only [ok_bind]
      cases addAll ExecutorDefinition.read Project.addExecutor ⟨settings, ∅, [], []⟩
        (definitionFiles (base ++ "executors/") ((dir.child? "executors").getD .emptyFolder)) <;>
        rfl

/-- Of the files of a folder, loading looks at the names and the texts of the definitions. -/
theorem addAll_definitionFiles {α : Type} (read : Yaml.Site → Read α)
    (add : Project → String → α → Except LoadError Project) (p : Project) (base : String)
    (folder : Option FileTree) :
    addAll read add p (definitionFiles base (folder.getD .emptyFolder)) =
      (definitions folder).foldlM (fun p e =>
        readDefinition read (base ++ e.1) (.file e.2) >>= add p (base ++ e.1)) p := by
  have h (p : Project) (files : List (String × FileTree)) : addAll read add p files =
      files.foldlM (fun p f => readDefinition read f.1 (.file f.2.text?) >>= add p f.1) p := by
    induction files generalizing p with
    | nil => rfl
    | cons f files ih =>
      simp only [addAll, List.foldlM_cons, bind_assoc, ih]
      rfl
  rw [h, definitionFiles, definitions_eq, List.foldlM_map, List.foldlM_map]

/-- A project directory is loaded item by item. -/
theorem outcome_loadProject (base : String) (d : Option FileTree) :
    (loadProject base d).outcome = (items base d).foldlM Item.load .empty := by
  rw [loadProject_eq_bind, items, List.cons_append, List.foldlM_cons, readSettings_eq]
  cases hs : readSettings (base ++ "config.toml")
      (((at? d ["config.toml"]).map text?).map .file) with
  | error e => simp only [Item.load, hs, error_bind]
  | ok settings =>
    simp only [Item.load, hs, ok_bind, addAll_definitionFiles, List.foldlM_append,
      List.foldlM_map]
    rfl

theorem skippedFiles_eq (base : String) (folder : Option FileTree) :
    skippedFiles base (folder.getD .emptyFolder) =
      ((listing folder).filter fun e => !isDefinitionName e.1).map fun e => base ++ e.1 := by
  rw [skippedFiles, listing, List.filter_map, List.map_map]
  rfl

/-- What is loaded and what is passed over do not depend on how a directory is listed. -/
theorem loadProject_eq_of_sameFiles (base : String) {d d' : Option FileTree} (h : SameFiles d d')
    (hd : DistinctNames d) (hd' : DistinctNames d') : loadProject base d = loadProject base d' := by
  have hl (name : String) : listing (at? d [name]) = listing (at? d' [name]) :=
    listing_eq (h.at? _) (hd.at? _) (hd'.at? _)
  have hs : readSettings (base ++ "config.toml") (at? d ["config.toml"]) =
      readSettings (base ++ "config.toml") (at? d' ["config.toml"]) := by
    rw [readSettings_eq, (h.at? _).map_text?, ← readSettings_eq]
  have ha {α : Type} (read : Yaml.Site → Read α)
      (add : Project → String → α → Except LoadError Project) (p : Project) (base name : String) :
      addAll read add p (definitionFiles base ((at? d [name]).getD .emptyFolder)) =
        addAll read add p (definitionFiles base ((at? d' [name]).getD .emptyFolder)) := by
    rw [addAll_definitionFiles, addAll_definitionFiles, definitions, definitions, hl]
  have hp (base name : String) : skippedFiles base ((at? d [name]).getD .emptyFolder) =
      skippedFiles base ((at? d' [name]).getD .emptyFolder) := by
    rw [skippedFiles_eq, skippedFiles_eq, hl]
  cases d with
  | none =>
    cases d' with
    | none => rfl
    | some dir' =>
      have hk : none = some dir'.kind := h []
      cases hk
  | some dir =>
    cases d' with
    | none =>
      have hk : some dir.kind = none := h []
      cases hk
    | some dir' =>
      simp only [at?, Option.bind_some] at hs ha hp
      simp only [loadProject, hs, ha, hp]

/-! ## What items add -/

namespace Project

variable {p p' : Project} {path : String}

/-- An executor was defined in a file of the text, under its name. -/
def DefinedIn (path : String) (text : Option String) (x : String × HeldExecutor) : Prop :=
  ∃ d, readDefinition ExecutorDefinition.read path (.file text) = .ok d ∧ d.name = x.1 ∧
    d.executor? = some x.2.executor

/-- An executor that is added comes after those that are there. -/
theorem addExecutor_eq_ok {d : ExecutorDefinition} (h : p.addExecutor path d = .ok p') :
    ∃ e, d.executor? = some e.executor ∧
      p'.executors.entries = p.executors.entries ++ [(d.name, e)] := by
  unfold addExecutor at h
  split at h
  · cases h
  · rename_i hc
    split at h
    · cases h
    · rename_i e he
      cases h
      exact ⟨⟨.fresh p.holdings, e⟩, he,
        Dict.entries_insert_of_notMem (mt Dict.contains_iff.mpr hc) _⟩

/-- Each file adds the executor that it defines. -/
theorem definedIn_of_addAll {files : List (String × FileTree)}
    (h : addAll ExecutorDefinition.read addExecutor p files = .ok p') :
    ∃ xs, p'.executors.entries = p.executors.entries ++ xs ∧
      List.Forall₂ (fun f x => DefinedIn f.1 f.2.text? x) files xs := by
  induction files generalizing p with
  | nil =>
    cases h
    exact ⟨[], (List.append_nil _).symm, .nil⟩
  | cons f files ih =>
    obtain ⟨d, mid, hd, hm, h⟩ := addAll_cons_eq_ok.mp h
    obtain ⟨e, he, hmid⟩ := addExecutor_eq_ok hm
    obtain ⟨xs, hxs, hf⟩ := ih h
    refine ⟨(d.name, e) :: xs, ?_, .cons ⟨d, hd, rfl, he⟩ hf⟩
    rw [hxs, hmid, List.append_assoc, List.singleton_append]

/-- A job that is added, and the reference that it may need, come after those that are there. -/
theorem addJob_keeps {d : JobDefinition} (h : p.addJob path d = .ok p') :
    p'.settings = p.settings ∧ p'.executors = p.executors ∧
      (∃ rs, p'.references = p.references ++ rs) ∧ ∃ j, p'.jobs = p.jobs ++ [j] := by
  simp only [addJob_eq, bind_eq_ok, mapError_eq_ok, pure_eq_ok_iff] at h
  obtain ⟨choice, -, j, -, rfl⟩ := h
  cases choice with
  | defined e => exact ⟨rfl, rfl, ⟨[], (List.append_nil _).symm⟩, j, rfl⟩
  | elsewhere x => exact ⟨rfl, rfl, ⟨[_], rfl⟩, j, rfl⟩

end Project

theorem forall₂_definitionFiles {β : Type} {R : String → Option String → β → Prop} {base : String}
    {folder : Option FileTree} {bs : List β} :
    List.Forall₂ (fun f b => R f.1 f.2.text? b)
        (definitionFiles base (folder.getD .emptyFolder)) bs ↔
      List.Forall₂ (fun e b => R (base ++ e.1) e.2 b) (definitions folder) bs := by
  rw [definitionFiles, definitions_eq, List.forall₂_map_left_iff, List.forall₂_map_left_iff]

/-- The executors and the jobs of a loaded project are those that its files define, in order. -/
theorem forall₂_of_loadProject {base : String} {d : Option FileTree} {p : Project}
    (h : (loadProject base d).outcome = .ok p) :
    List.Forall₂ (fun e x => Project.DefinedIn (base ++ "executors/" ++ e.1) e.2 x)
        (definitions (at? d ["executors"])) p.executors.entries ∧
      List.Forall₂ (fun e j => p.ProvidesFor (base ++ "jobs/" ++ e.1, .file e.2) j)
        (definitions (at? d ["jobs"])) p.jobs := by
  refine ⟨?_, (forall₂_definitionFiles
    (R := fun path text j => p.ProvidesFor (path, .file text) j)).mp (providesFor_of_loadProject h)⟩
  rw [loadProject_eq_bind] at h
  obtain ⟨settings, -, h⟩ := bind_eq_ok.mp h
  obtain ⟨mid, hm, h⟩ := bind_eq_ok.mp h
  obtain ⟨xs, hxs, hf⟩ := Project.definedIn_of_addAll hm
  obtain ⟨hg, -⟩ := Project.builtFrom_of_addAll h
  have he : p.executors.entries = xs := by
    rw [hg.executors, hxs]
    rfl
  rw [he]
  exact forall₂_definitionFiles.mp hf

/-! ## One more job -/

/-- A job file whose name is the greatest is the last item. -/
theorem items_put {d : Option FileTree} (hd : DistinctNames d) {name : String}
    (hn : isDefinitionName name = true)
    (hlast : ∀ e ∈ definitions (at? d ["jobs"]), Utf8.bytes e.1 < Utf8.bytes name) (base : String)
    (text : Option String) :
    items base (some (put (.file text) ["jobs", name] (d.getD .emptyFolder))) =
      items base d ++ [.job (base ++ "jobs/" ++ name) text] := by
  simp only [items, at?_put, if_pos, if_neg (by decide : "jobs" ≠ "config.toml"),
    if_neg (by decide : "jobs" ≠ "executors")]
  rw [definitions_put (hd.at? ["jobs"]) hn hlast, List.map_append, ← List.append_assoc]
  rfl

/-! ## Loading by name -/

/-- However a project directory is listed, loading it comes to the same. When it succeeds, the
project has the executors and the jobs that the definitions in the two folders give, one for each,
in the order of the bytes of their file names. When it fails, it is with the error of the first item
that fails, and that is so in each directory with the same items up to this one. A job file whose
name is the greatest adds a job, and perhaps a reference, to what is loaded without it. -/
theorem loadProject_byName (base : String) {d : Option FileTree} (hd : DistinctNames d) :
    (∀ d', SameFiles d d' → DistinctNames d' → loadProject base d' = loadProject base d) ∧
    ByName (at? d ["executors"]) (definitions (at? d ["executors"])) ∧
    ByName (at? d ["jobs"]) (definitions (at? d ["jobs"])) ∧
    (∀ p, (loadProject base d).outcome = .ok p →
      List.Forall₂ (fun e x => Project.DefinedIn (base ++ "executors/" ++ e.1) e.2 x)
        (definitions (at? d ["executors"])) p.executors.entries ∧
      List.Forall₂ (fun e j => p.ProvidesFor (base ++ "jobs/" ++ e.1, .file e.2) j)
        (definitions (at? d ["jobs"])) p.jobs) ∧
    (∀ e, (loadProject base d).outcome = .error e ↔ ∃ front item p,
      front ++ [item] <+: items base d ∧ front.foldlM Item.load .empty = .ok p ∧
        item.load p = .error e ∧
        ∀ d', front ++ [item] <+: items base d' → (loadProject base d').outcome = .error e) ∧
    ∀ name text p', isDefinitionName name = true →
      (∀ e ∈ definitions (at? d ["jobs"]), Utf8.bytes e.1 < Utf8.bytes name) →
      (loadProject base (some (put (.file text) ["jobs", name] (d.getD .emptyFolder)))).outcome =
        .ok p' →
      ∃ p, (loadProject base d).outcome = .ok p ∧ p'.settings = p.settings ∧
        p'.executors = p.executors ∧ (∃ rs, p'.references = p.references ++ rs) ∧
        ∃ j, p'.jobs = p.jobs ++ [j] := by
  refine ⟨fun d' h hd' => (loadProject_eq_of_sameFiles base h hd hd').symm,
    byName_definitions (hd.at? _).nodup, byName_definitions (hd.at? _).nodup,
    fun p hp => forall₂_of_loadProject hp, fun e => ?_, fun name text p' hn hlast hp' => ?_⟩
  · rw [outcome_loadProject, foldlM_eq_error_iff]
    constructor
    · rintro ⟨front, item, p, hpre, hf, hi⟩
      refine ⟨front, item, p, hpre, hf, hi, fun d' hd' => ?_⟩
      rw [outcome_loadProject, foldlM_eq_error_iff]
      exact ⟨front, item, p, hd', hf, hi⟩
    · rintro ⟨front, item, p, hpre, hf, hi, -⟩
      exact ⟨front, item, p, hpre, hf, hi⟩
  · rw [outcome_loadProject, items_put hd hn hlast, List.foldlM_append, ← outcome_loadProject,
      bind_eq_ok] at hp'
    obtain ⟨p, hp, hj⟩ := hp'
    simp only [List.foldlM_cons, List.foldlM_nil, Item.load, bind_eq_ok, pure_eq_ok_iff] at hj
    obtain ⟨_, ⟨_, -, hj⟩, rfl⟩ := hj
    exact ⟨p, hp, Project.addJob_keeps hj⟩

/-- Two jobs, listed in either order, and a third one whose file comes last. -/
theorem loadProject_byName_deploy :
    let linux := "name: linux\nmacos:\n  xcode: \"15.0\"\n"
    let build := "name: build\nexecutor: linux\n"
    let deploy := "name: deploy\nexecutor: node\n"
    let notes := "name: notes\nexecutor: node\n"
    let dir (jobs : List (String × FileTree)) : FileTree :=
      .folder [("executors", .folder [("linux.yaml", .file (some linux))]), ("jobs", .folder jobs)]
    let d := dir [("deploy.yml", .file (some deploy)), ("build.yaml", .file (some build))]
    let d' := dir [("build.yaml", .file (some build)), ("deploy.yml", .file (some deploy))]
    loadProject "" (some d') = loadProject "" (some d) ∧
      ∃ p p', (loadProject "" (some d)).outcome = .ok p ∧
        (loadProject "" (some (put (.file (some notes)) ["jobs", "é.yml"] d))).outcome = .ok p' ∧
        p.jobs.map AnyJob.name = ["build", "deploy"] ∧ p'.executors = p.executors ∧
        ∃ j, p'.jobs = p.jobs ++ [j] := by
  intro linux build deploy notes dir d d'
  have hdir {jobs : List (String × FileTree)} (hj : DistinctNames (some (.folder jobs))) :
      DistinctNames (some (dir jobs)) := by
    have hn : ["executors", "jobs"].Nodup := by decide
    refine distinctNames_folder hn (List.forall_mem_cons.mpr ⟨?_, ?_⟩)
    · exact distinctNames_files [("linux.yaml", some linux)] (by decide)
    · exact List.forall_mem_singleton.mpr hj
  have hd : DistinctNames (some d) := hdir (distinctNames_files
    [("deploy.yml", some deploy), ("build.yaml", some build)] (by decide))
  have hd' : DistinctNames (some d') := hdir (distinctNames_files
    [("build.yaml", some build), ("deploy.yml", some deploy)] (by decide))
  have hs : SameFiles (some d) (some d') := by
    refine sameFiles_of_forall₂ (.cons ⟨rfl, fun _ => rfl⟩ (.cons ⟨rfl, ?_⟩ .nil))
    exact sameFiles_of_perm (by decide) (.swap ..)
  obtain ⟨hsame, -, -, -, -, hput⟩ := loadProject_byName "" hd
  obtain ⟨p', hp'⟩ : ∃ p', (loadProject "" (some (put (.file (some notes)) ["jobs", "é.yml"]
      d))).outcome = .ok p' := failure?_eq_none_iff.mp (by decide +kernel)
  obtain ⟨p, hp, -, hx, -, hj⟩ := hput "é.yml" (some notes) p' (by decide) (by decide +kernel) hp'
  have hl : (fun p : Project => p.jobs.map AnyJob.name) <$> (loadProject "" (some d)).outcome =
      .ok ["build", "deploy"] := by
    decide +kernel
  rw [hp, Except.map_ok] at hl
  exact ⟨hsame _ hs hd', p, p', hp, hp', Except.ok.inj hl, hx, hj⟩

end JobConfig

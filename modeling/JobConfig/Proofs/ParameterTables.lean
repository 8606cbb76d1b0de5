import JobConfig.Proofs.InPlace

/-!
# Parameters under their names

A list of parameters can be kept as a dictionary, in which a parameter is put under its own name
(`ParameterTable.add`) and found by it. It has the parameters of the list in their order, and says
the same of every name (`Parameters.get?_keyed`). What is put into the one is put into the other or
refused by both (`Parameters.on_add_keyed`), and so it is with any number of parameters
(`Parameters.apart_forM_add_keyed`). As nothing else is put into it, such a dictionary has every
parameter under the parameter's own name.
-/

namespace JobConfig

namespace ParameterTable

/-- Puts a parameter into a dictionary under its name, unless the name is taken. -/
def add (p : Parameter) : Work (Dict Parameter) BuildError Unit := do
  if (← get).contains p.name then throw (.duplicateName p.name)
  modify (·.insert p.name p)

/-- The dictionary after offers, one after the other, whether or not they are taken. -/
def afterOffers (t : Dict Parameter) (qs : List Parameter) : Dict Parameter :=
  qs.foldl (fun t q => ((add q).on t).2) t

/-- The dictionary as it is written: what each parameter declares, under the name by which it is
found. -/
def contents (t : Dict Parameter) : Value :=
  .ofEntries (t.map Parameter.contents).entries

theorem on_add (t : Dict Parameter) (p : Parameter) :
    (add p).on t = if t.contains p.name then (.error (.duplicateName p.name), t)
      else (.ok (), t.insert p.name p) := by
  by_cases h : t.contains p.name <;> simp [add, Work.on_bind, h]

end ParameterTable

namespace Parameters

variable {ps ps' : Parameters} {p : Parameter}

/-- The parameters of a list, each under its own name. -/
def keyed (ps : Parameters) : Dict Parameter :=
  ⟨ps.items.map fun p => (p.name, p), by
    have h := ps.distinct
    simpa [entryKeys, parameterNames, Function.comp_def] using h⟩

theorem entries_keyed (ps : Parameters) :
    ps.keyed.entries = ps.items.map fun p => (p.name, p) := rfl

theorem keys_keyed (ps : Parameters) : ps.keyed.keys = ps.names := by
  simp [Dict.keys, entries_keyed, entryKeys, names, parameterNames]

theorem values_keyed (ps : Parameters) : ps.keyed.entries.map Prod.snd = ps.items := by
  simp [entries_keyed, Function.comp_def]

/-- What is found under a name is the parameter of the list that has it. -/
theorem get?_keyed (ps : Parameters) (name : String) : ps.keyed.get? name = ps.get? name := by
  ext p
  rw [← Dict.mem_entries_iff, get?_eq_some_iff, entries_keyed, List.mem_map]
  constructor
  · rintro ⟨q, hq, he⟩
    cases he
    exact ⟨hq, rfl⟩
  · rintro ⟨hp, rfl⟩
    exact ⟨p, hp, rfl⟩

theorem contains_keyed (ps : Parameters) (name : String) :
    ps.keyed.contains name = ps.contains name := by
  rw [Bool.eq_iff_iff, Dict.contains_iff, keys_keyed, contains, decide_eq_true_iff]

theorem contents_keyed (ps : Parameters) : ParameterTable.contents ps.keyed = ps.contents := by
  simp [ParameterTable.contents, contents, Dict.map, entries_keyed, Function.comp_def]

/-- A parameter that is added to a list is put under its name. -/
theorem keyed_add (h : ps.add p = .ok ps') : ps'.keyed = ps.keyed.insert p.name p := by
  have hn : p.name ∉ ps.keyed.keys := by
    rw [keys_keyed]
    intro hm
    rw [add_of_mem hm] at h
    cases h
  refine Dict.ext ?_
  rw [Dict.entries_insert_of_notMem hn, entries_keyed, entries_keyed, items_add h, List.map_append,
    List.map_singleton]

/-- A parameter is put into both or refused by both, which then stay as they are. -/
theorem on_add_keyed (p : Parameter) (ps : Parameters) :
    (ParameterTable.add p).on ps.keyed = ((addInPlace p).on ps).map id keyed := by
  rw [ParameterTable.on_add, contains_keyed, on_addInPlace]
  by_cases h : p.name ∈ ps.names
  · simp [contains, h, add_of_mem h, Work.expected]
  · obtain ⟨ps', hps⟩ := exists_add h
    simp [contains, h, hps, keyed_add hps, Work.expected]

/-- So it is with parameters put in one after the other, up to the first that is refused. -/
theorem apart_forM_add_keyed (ps : Parameters) (qs : List Parameter) :
    Work.apart (qs.forM ParameterTable.add) ps.keyed = keyed <$> qs.foldlM add ps := by
  rw [← apart_forM_addInPlace, Work.apart_forM_of_map on_add_keyed]

end Parameters

end JobConfig

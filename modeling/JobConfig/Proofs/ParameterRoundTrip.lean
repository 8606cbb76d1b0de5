import JobConfig.Parameter.Listing
import JobConfig.Proofs.Records

/-!
# Reading parameters back

A literal and a declaration are read back from what is written for them (`Literal.read_toValue`,
`Declaration.read_toValue`), and a parameter is declared again from its own declaration. So the
section of a job's parameters gives the same list, in the same order, when it is read and built
(`Parameters.rebuilt_from_contents`).
-/

namespace JobConfig

/-! ## Declarations -/

theorem Literal.read_toValue (l : Literal) : Literal.read l.toValue = .ok l := by
  have hs : Source.shape l.toValue = .ok l.toValue := by
    cases l <;> rfl
  simp only [Literal.read, hs, ok_bind, Literal.ofValue?_toValue]
  rfl

theorem Literal.toValue_ne_null (l : Literal) : l.toValue ≠ .null := by
  cases l <;> nofun

theorem ParameterType.read_name (t : ParameterType) :
    ParameterType.read (Value.str t.name) = .ok t := by
  cases t <;> rfl

/-- The entries of a declaration as it is written. -/
def Declaration.entries (d : Declaration) : List (String × Value) :=
  Value.setFields [
    ("type", some (.str d.type.name)),
    ("default", d.default.map Literal.toValue),
    ("description", d.description.map .str),
    ("enum", d.allowed.map .strs)]

theorem Declaration.toValue_eq (d : Declaration) : d.toValue = .ofEntries d.entries := rfl

theorem Declaration.valueAt?_enum (d : Declaration) :
    valueAt? "enum" d.entries = d.allowed.map .strs := by
  have hd : (entryKeys [
      ("type", some (Value.str d.type.name)), ("default", d.default.map Literal.toValue),
      ("description", d.description.map .str), ("enum", d.allowed.map .strs)]).Nodup := by
    simp [entryKeys]
  rw [entries, Value.valueAt?_setFields _ hd]
  simp [valueAt?]

theorem Declaration.read_toValue (d : Declaration) : Declaration.read d.toValue = .ok d :=
  Fields.Inverts.required "type" (ParameterType.read_name d.type) |>.map Declaration.mk
    |>.and (.optional "default" d.default fun l _ => ⟨l.toValue_ne_null, l.read_toValue⟩)
    |>.and (.optional_str "description" d.description)
    |>.and (.optional_strs "enum" d.allowed)
    |>.read_record _ _

/-! ## Lists of parameters -/

namespace Parameters

/-- What the parameters of a list declare, by their names. -/
def declarations (ps : Parameters) : Dict Declaration :=
  ⟨ps.items.map fun p => (p.name, p.declaration), by
    have h := ps.distinct
    simpa [entryKeys, parameterNames, Function.comp_def] using h⟩

theorem readDict_contents (ps : Parameters) :
    Source.readDict Declaration.read ps.contents = .ok ps.declarations := by
  have hc : ps.contents = .ofEntries (ps.declarations.map Declaration.toValue).entries := by
    simp [contents, declarations, Dict.map, Function.comp_def, Parameter.contents]
  rw [hc]
  exact Value.readDict_map ps.declarations fun e _ => e.2.read_toValue

theorem mapM_declare (ps : List Parameter) :
    (ps.map fun p => (p.name, p.declaration)).mapM (fun e => Parameter.declare e.1 e.2) =
      .ok ps := by
  induction ps with
  | nil => rfl
  | cons p ps ih => simp [Parameter.declare_self, ih]

/-- Parameters with new names, added one after the other, follow those that are there. -/
theorem foldlM_add (qs : List Parameter) (ps : Parameters)
    (h : (parameterNames (ps.items ++ qs)).Nodup) : qs.foldlM add ps = .ok ⟨ps.items ++ qs, h⟩ := by
  induction qs generalizing ps with
  | nil => simp [pure, Except.pure]
  | cons q qs ih =>
    have hnew : q.name ∉ ps.names := by
      simp only [parameterNames, List.map_append, List.map_cons] at h
      exact fun hm => (List.nodup_append.mp h).2.2 _ hm _ List.mem_cons_self rfl
    simp only [List.foldlM_cons, add, dif_neg hnew, ok_bind]
    rw [ih _ (by simpa [parameterNames] using h)]
    simp

/-- The parameters of a list make the same list again. -/
theorem ofList_items (ps : Parameters) : ofList ps.items = .ok ps :=
  foldlM_add ps.items ∅ ps.distinct

/-- What is written for a parameter reads as a declaration that makes it again, and has the values
an enum allows as they are listed; what is written for a list of parameters makes the same list
again. -/
theorem rebuilt_from_contents :
    (∀ p : Parameter,
      (∃ d, Declaration.read p.contents = .ok d ∧ Parameter.declare p.name d = .ok p) ∧
      ∃ es, p.contents = .ofEntries es ∧
        valueAt? "enum" es = p.declaration.allowed.map fun allowed => .seq (allowed.map .str)) ∧
    ∀ ps : Parameters, ∃ ds qs, Source.readDict Declaration.read ps.contents = .ok ds ∧
      ds.entries.mapM (fun e => Parameter.declare e.1 e.2) = .ok qs ∧ ofList qs = .ok ps := by
  refine ⟨fun p => ⟨⟨p.declaration, p.declaration.read_toValue, p.declare_self⟩, ?_⟩, fun ps => ?_⟩
  · exact ⟨p.declaration.entries, p.declaration.toValue_eq, p.declaration.valueAt?_enum⟩
  · exact ⟨ps.declarations, ps.items, ps.readDict_contents, mapM_declare ps.items, ps.ofList_items⟩

end Parameters

end JobConfig

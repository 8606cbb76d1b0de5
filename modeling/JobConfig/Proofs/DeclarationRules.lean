import JobConfig.Proofs.ParameterRoundTrip
import JobConfig.Proofs.RuledRecords

/-!
# What reads as a declaration

A declaration has rules for its fields (`Declaration.rules`), and what reads as one is what conforms
to them. Entries of other names are no hindrance: they are passed over. So what is written for a
declaration that was read are the entries it was read from, without those that are null and in the
order of the fields, unless there are others that are not null (`Declaration.keeps_iff`). A
declaration whose default is misspelled reads as one without a default
(`Declaration.not_keeps_misspelled`).
-/

namespace JobConfig

/-! ## Rules that keep values -/

namespace FieldRule

/-- What is written for a value is the value itself, unless it is null. -/
def Verbatim (r : FieldRule) : Prop :=
  ∀ v, r.takes v → r.written v = if v = .null then none else some v

theorem Verbatim.needed (name : String) {type : Value → Prop} (h : ¬ type .null) :
    (FieldRule.needed name type).Verbatim := by
  intro v hv
  have hn : v ≠ .null := fun hn => h (hn ▸ hv)
  exact (if_neg hn).symm

theorem Verbatim.optional (name : String) (type : Value → Prop) :
    (FieldRule.optional name type).Verbatim :=
  fun _ _ => rfl

/-- What is written for a value is the value itself, and there is such a value if it is not null. -/
theorem Verbatim.written_eq_some_iff {r : FieldRule} (h : r.Verbatim) {v : Value} (hv : r.takes v)
    (u : Value) : r.written v = some u ↔ v = u ∧ v ≠ .null := by
  rw [h v hv]
  by_cases hn : v = .null <;> simp [hn]

end FieldRule

/-! ## Literals -/

/-- A flag, an integer of 64 bits or a text. -/
def Value.IsLiteral (v : Value) : Prop :=
  ∃ l : Literal, v = l.toValue

theorem Literal.toValue_of_ofValue? {v : Value} {l : Literal} (h : ofValue? v = some l) :
    l.toValue = v := by
  unfold ofValue? at h
  split at h
  · cases h
    rfl
  · rename_i n
    split at h
    · rename_i hn
      cases h
      simp only [fitsInt64, Nat.pow_eq, Bool.and_eq_true, decide_eq_true_eq] at hn
      rw [toValue, Int64.toInt_ofInt_of_le]
      · omega
      · omega
    · cases h
  · cases h
    rfl
  · cases h

theorem Literal.read_eq_ok_iff {v : Value} {l : Literal} :
    Literal.read v = .ok l ↔ l.toValue = v := by
  constructor
  · intro h
    obtain ⟨u, hs, h⟩ := bind_eq_ok.mp h
    have hu : v = u := by
      change v.readShape = .ok u at hs
      unfold Value.readShape at hs
      split at hs <;> cases hs
      rfl
    split at h
    · rename_i hl
      cases h
      rw [hu, toValue_of_ofValue? hl]
    · cases h
  · rintro rfl
    exact l.read_toValue

theorem exact_literal : Exact Literal.read Value.IsLiteral Literal.toValue where
  accepts_iff _ _ := exists_congr fun _ => Literal.read_eq_ok_iff.trans eq_comm
  write_eq _ _ h := Literal.read_eq_ok_iff.mp h

theorem exact_parameterType :
    Exact ParameterType.read (Value.IsOneOf ["string", "boolean", "integer", "enum", "environment"])
      fun t => .str t.name :=
  exact_choice (by decide)

/-! ## Declarations -/

namespace Declaration

def rules : List FieldRule := [
  .needed "type" (Value.IsOneOf ["string", "boolean", "integer", "enum", "environment"]),
  .optional "default" Value.IsLiteral,
  .optional "description" Value.IsText,
  .optional "enum" Value.AreTexts]

open Fields.Obeys in
theorem rewrites : Declaration.fields.Rewrites rules entries :=
  field (.needed "type" exact_parameterType nofun nofun) |>.map Declaration.mk
    |>.and (.optional "default" exact_literal)
    |>.and (.optional "description" exact_str)
    |>.and (.optional "enum" exact_texts)
    |>.rewrites fun _ => rfl

theorem verbatim_of_mem_rules : ∀ r ∈ rules, r.Verbatim := by
  simp only [rules, List.forall_mem_cons]
  exact ⟨.needed _ nofun, .optional _ _, .optional _ _, .optional _ _, nofun⟩

/-- A plain value is read as a declaration exactly if it has entries that conform to the rules,
other entries apart. -/
theorem accepts_iff {v : Value} (hv : v.Plain) :
    Accepts Declaration.read v ↔ ∃ es, v.HasEntries es ∧ FieldRule.Conforms rules false es :=
  rewrites.accepts_value_iff hv

/-- What is written for the declaration are the entries of the value that are not null, in the order
of the fields. -/
def Keeps (d : Declaration) (v : Value) : Prop :=
  ∃ es w, v.HasEntries es ∧ d.toValue = .ofEntries w ∧
    (entryKeys w).Sublist ["type", "default", "description", "enum"] ∧
      ∀ e, e ∈ w ↔ e ∈ es ∧ e.2 ≠ .null

/-- What is written for the declaration that a value reads as are those of its entries that are
fields and not null, in the order of the fields. -/
theorem mem_entries_iff {v : Value} {d : Declaration} (hv : v.Plain)
    (h : Declaration.read v = .ok d) : ∃ es, v.HasEntries es ∧
      (entryKeys d.entries).Sublist (FieldRule.names rules) ∧
        ∀ e, e ∈ d.entries ↔ e ∈ es ∧ e.2 ≠ .null ∧ e.1 ∈ FieldRule.names rules := by
  obtain ⟨es, he, hc⟩ := (accepts_iff hv).mp ⟨d, h⟩
  have hw : d.entries = FieldRule.rewritten rules es := rewrites.written_of_read hv he h
  refine ⟨es, he, ?_, fun e => ?_⟩
  · rw [hw]
    exact FieldRule.entryKeys_rewritten_sublist rules es
  · rw [hw]
    exact FieldRule.mem_rewritten_iff (fun e => e.2 ≠ .null)
      (fun r hr v hv u => (verbatim_of_mem_rules r hr).written_eq_some_iff hv u)
      (hv.of_hasEntries he).1 hc

/-- Nothing that a value says is lost in the declaration that it reads as exactly if all its
entries, but for those that are null, are fields of a declaration. -/
theorem keeps_iff {v : Value} {d : Declaration} (hv : v.Plain) (h : Declaration.read v = .ok d) :
    d.Keeps v ↔ ∀ es, v.HasEntries es → ∀ e ∈ es, e.2 ≠ .null → e.1 ∈ FieldRule.names rules := by
  obtain ⟨es, he, hs, hm⟩ := mem_entries_iff hv h
  constructor
  · rintro ⟨es', w, he', hw, -, hk⟩ fs hf e hef hn
    rw [hf.unique he'] at hef
    rw [← Value.ofEntries_injective hw] at hk
    exact ((hm e).mp ((hk e).mpr ⟨hef, hn⟩)).2.2
  · intro hk
    refine ⟨es, d.entries, he, rfl, hs, fun e => ?_⟩
    rw [hm]
    exact ⟨fun h => ⟨h.1, h.2.1⟩, fun h => ⟨h.1, h.2, hk es he e h.1 h.2⟩⟩

/-- A declaration whose default is misspelled reads as one that has no default. -/
theorem not_keeps_misspelled :
    let v := Value.ofEntries [("type", .str "string"), ("defualt", .str "x")]
    let d : Declaration := ⟨.string, none, none, none⟩
    v.Plain ∧ Declaration.read v = .ok d ∧ ¬ d.Keeps v := by
  intro v d
  refine ⟨.ofEntries (by decide) ?_, by decide, ?_⟩
  · simp only [List.forall_mem_cons]
    exact ⟨.str _, .str _, nofun⟩
  · rintro ⟨es, w, he, hw, -, hk⟩
    rw [he.unique (.inl rfl), ← Value.ofEntries_injective hw] at hk
    have hm := (hk ("defualt", .str "x")).mpr (by decide)
    revert hm
    decide

/-- Every field is there, and a key without a value. -/
theorem keeps_iff_target :
    let v := Value.ofEntries [("enum", .strs ["all", "docs"]), ("note", .null),
      ("default", .str "all"), ("description", .str "what to build"), ("type", .str "enum")]
    let d : Declaration := ⟨.enum, some (.str "all"), some "what to build", some ["all", "docs"]⟩
    (v.Plain ∧ Declaration.read v = .ok d) ∧ d.Keeps v := by
  intro v d
  have hv : v.Plain := by
    refine .ofEntries (by decide) ?_
    simp only [List.forall_mem_cons]
    refine ⟨.seq ?_, .null, .str _, .str _, .str _, nofun⟩
    simp only [List.map_cons, List.map_nil, List.forall_mem_cons]
    exact ⟨.str _, .str _, nofun⟩
  have hr : Declaration.read v = .ok d := by decide
  refine ⟨⟨hv, hr⟩, (keeps_iff hv hr).mpr fun es he e hm hn => ?_⟩
  rw [he.unique (.inl rfl)] at hm
  revert e
  decide

end Declaration

end JobConfig

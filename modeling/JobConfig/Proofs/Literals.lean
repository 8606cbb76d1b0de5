import JobConfig.Proofs.DeclarationRules
import JobConfig.Proofs.EntryOrder
import JobConfig.Proofs.JobRoundTrip

/-!
# Literals as they are written

A value reads as a literal exactly if it is what the literal is written as, and any other value
(`Value.NoLiteral`) is refused (`Literal.read_eq_error_iff`). So nothing is made into a literal that
it is not: a text that looks like a flag or an integer stays a text, and neither null nor a float is
taken for anything. The same goes for the literals in a definition: the default of a parameter
(`Declaration.default_of_read`) and the arguments of an executor
(`ExecutorReference.read_invocation_iff`). `Literal.read_as_written` says it of all of them.
-/

namespace JobConfig

open Source (IsMapping Under)

/-! ## Values that are no literals -/

/-- The value is of a kind that literals have not, or it is an integer that 64 bits with sign do not
hold. -/
inductive Value.NoLiteral : Value → Prop where
  | null : NoLiteral .null
  | float (x : Double) : NoLiteral (.float x)
  | wide {n : Int} (h : n < Int64.minValue.toInt ∨ Int64.maxValue.toInt < n) : NoLiteral (.int n)
  | seq (items : List Value) : NoLiteral (.seq items)
  | map (es : List (Value × Value)) : NoLiteral (.map es)
  | tagged (tag : String) (content : Value) : NoLiteral (.tagged tag content)

theorem fitsInt64_eq_false_iff {n : Int} :
    fitsInt64 n = false ↔ n < Int64.minValue.toInt ∨ Int64.maxValue.toInt < n := by
  have hmin : Int64.minValue.toInt = -2 ^ 63 := rfl
  have hmax : Int64.maxValue.toInt = 2 ^ 63 - 1 := rfl
  simp only [fitsInt64, Nat.pow_eq, Bool.and_eq_false_iff, decide_eq_false_iff_not]
  omega

namespace Literal

variable {v : Value} {l : Literal} {e : ReadError}

theorem ofValue?_eq_none_iff : ofValue? v = none ↔ v.NoLiteral := by
  cases v with
  | bool b => exact ⟨nofun, nofun⟩
  | str text => exact ⟨nofun, nofun⟩
  | int n =>
    have hn : ofValue? (.int n) = none ↔ fitsInt64 n = false := by simp [ofValue?]
    rw [hn, fitsInt64_eq_false_iff]
    constructor
    · exact .wide
    · rintro ⟨⟩
      assumption
  | null => exact iff_of_true rfl .null
  | float x => exact iff_of_true rfl (.float x)
  | seq items => exact iff_of_true rfl (.seq items)
  | map es => exact iff_of_true rfl (.map es)
  | tagged tag content => exact iff_of_true rfl (.tagged tag content)

/-- What is told of a value that is no literal depends on whether there are tags in it. -/
theorem read_of_noLiteral (h : v.NoLiteral) : Literal.read v =
    .error ⟨if v.hasTag then .taggedChoice else .noVariant "ParameterValue", none⟩ := by
  have hs : Source.shape v = if v.hasTag then Read.fail .taggedChoice else .ok v := rfl
  rw [Literal.read, hs]
  split
  · rfl
  · rw [ok_bind, ofValue?_eq_none_iff.mpr h]
    rfl

theorem read_eq_error_iff : Literal.read v = .error e ↔
    v.NoLiteral ∧ e = ⟨if v.hasTag then .taggedChoice else .noVariant "ParameterValue", none⟩ := by
  constructor
  · intro he
    have hn : v.NoLiteral := by
      rw [← ofValue?_eq_none_iff, Option.eq_none_iff_forall_ne_some]
      intro l hl
      cases (read_eq_ok_iff.mpr (toValue_of_ofValue? hl)).symm.trans he
    exact ⟨hn, Except.error.inj (he.symm.trans (read_of_noLiteral hn))⟩
  · rintro ⟨hn, rfl⟩
    exact read_of_noLiteral hn

end Literal

/-! ## Defaults -/

/-- The default of a declaration is the literal that stands there, and nothing if null does. -/
theorem Declaration.default_of_read {v : Value} {es : List (Value × Value)} {d : Declaration}
    (hv : IsMapping v es) (h : Declaration.read v = .ok d) :
    (∀ t, Under es "default" t →
      t = .null ∧ d.default = none ∨ ∃ l, t = Literal.toValue l ∧ d.default = some l) ∧
    ((∀ t, ¬ Under es "default" t) → d.default = none) := by
  obtain ⟨find, hb, hf⟩ := Fields.exists_build_of_read hv h
  simp only [fields, Fields.build_and_eq_ok_iff, Fields.build_map_eq_ok_iff] at hb
  obtain ⟨_, ⟨_, ⟨_, ⟨type, -, rfl⟩, default, hd, rfl⟩, description, -, rfl⟩, allowed, -, rfl⟩ := hb
  have hm : "default" ∈ (fields (σ := Value)).names := by decide
  rw [Fields.build_optional_eq_ok_iff] at hd
  constructor
  · intro t ht
    rw [(hf _ hm t).mpr ht, Option.filter_some] at hd
    by_cases hn : t = .null
    · rw [if_neg (by simp [hn])] at hd
      cases hd
      exact .inl ⟨hn, rfl⟩
    · rw [if_pos (by simp [hn])] at hd
      cases hd with
      | some hl => exact .inr ⟨_, (Literal.read_eq_ok_iff.mp hl).symm, rfl⟩
  · intro hn
    have hnone : find "default" = none :=
      Option.eq_none_iff_forall_ne_some.mpr fun t ht => hn t ((hf _ hm t).mp ht)
    rw [hnone] at hd
    cases hd
    rfl

/-! ## Arguments -/

namespace ExecutorReference

theorem arguments?_eq_some_iff {es : List (Value × Value)} {as : List (String × Literal)} :
    arguments? es = some as ↔ es = as.map fun a => (.str a.1, a.2.toValue) := by
  constructor
  · intro h
    induction es generalizing as with
    | nil =>
      cases h
      rfl
    | cons e es ih =>
      obtain ⟨k, v⟩ := e
      cases k with
      | str name =>
        simp only [arguments?, Option.bind_eq_bind, Option.bind_eq_some_iff] at h
        obtain ⟨l, hl, as, has, h⟩ := h
        cases h
        rw [List.map_cons, ← ih has, Literal.toValue_of_ofValue? hl]
      | _ => cases h
  · rintro rfl
    exact Executor.arguments?_map as

theorem exists_arguments_of_ofValue? {v : Value} {arguments : Dict Literal}
    (h : ofValue? v = some (.invocation arguments)) : ∃ as : List (String × Literal),
      v = .ofEntries (as.map fun a => (a.1, a.2.toValue)) ∧ arguments = Dict.ofList as := by
  cases v with
  | map es =>
    obtain ⟨as, has, h⟩ := Option.map_eq_some_iff.mp h
    cases h
    refine ⟨as, ?_, rfl⟩
    rw [arguments?_eq_some_iff.mp has, Value.ofEntries, List.map_map]
    rfl
  | _ => cases h

/-- A reference is what the shape of a source says. -/
theorem read_eq_ok_iff_shape {σ : Type} [Source σ] {s : σ} {r : ExecutorReference} :
    ExecutorReference.read s = .ok r ↔ ∃ v, Source.shape s = .ok v ∧ ofValue? v = some r := by
  rw [ExecutorReference.read, bind_eq_ok]
  refine exists_congr fun v => and_congr_right fun _ => ?_
  cases ofValue? v with
  | none => simp [Read.fail]
  | some r' => simp

variable {v : Value}

theorem read_eq_ok_iff {r : ExecutorReference} :
    ExecutorReference.read v = .ok r ↔ v.hasTag = false ∧ ofValue? v = some r := by
  have hs : Source.shape v = if v.hasTag then Read.fail .taggedChoice else .ok v := rfl
  rw [read_eq_ok_iff_shape, hs]
  cases v.hasTag with
  | true => simp [Read.fail]
  | false => simp

theorem read_name_iff {n : String} : ExecutorReference.read v = .ok (.name n) ↔ v = .str n := by
  rw [read_eq_ok_iff]
  cases v with
  | str text => simp [ofValue?, Value.hasTag]
  | _ => simp [ofValue?]

/-- The arguments of an executor are literals under texts, each as it stands there. -/
theorem read_invocation_iff {arguments : Dict Literal} :
    ExecutorReference.read v = .ok (.invocation arguments) ↔ ∃ as : List (String × Literal),
      v = .ofEntries (as.map fun a => (a.1, a.2.toValue)) ∧ arguments = Dict.ofList as := by
  rw [read_eq_ok_iff]
  refine ⟨fun h => exists_arguments_of_ofValue? h.2, ?_⟩
  rintro ⟨as, rfl, rfl⟩
  rw [Value.ofEntries, List.map_map]
  refine ⟨Executor.hasTagEntries_map as, ?_⟩
  exact congrArg (Option.map fun es => invocation (Dict.ofList es)) (Executor.arguments?_map as)

end ExecutorReference

/-! ## Literals in definitions -/

namespace Literal

/-- A value reads as a literal exactly if it is what the literal is written as; null, floats,
integers that 64 bits with sign do not hold, sequences, mappings and values with a tag are refused.
So a default is the very literal that stands in its declaration, and so is each argument of an
executor. -/
theorem read_as_written :
    (∀ (v : Value) (l : Literal), Literal.read v = .ok l ↔ v = l.toValue) ∧
    (∀ (v : Value) (e : ReadError), Literal.read v = .error e ↔
      v.NoLiteral ∧ e = ⟨if v.hasTag then .taggedChoice else .noVariant "ParameterValue", none⟩) ∧
    (∀ (v : Value) (es : List (Value × Value)) (d : Declaration), IsMapping v es →
      Declaration.read v = .ok d →
        (∀ t, Under es "default" t →
          t = .null ∧ d.default = none ∨ ∃ l, t = Literal.toValue l ∧ d.default = some l) ∧
        ((∀ t, ¬ Under es "default" t) → d.default = none)) ∧
    (∀ (v : Value) (n : String), ExecutorReference.read v = .ok (.name n) ↔ v = .str n) ∧
    ∀ (v : Value) (arguments : Dict Literal),
      ExecutorReference.read v = .ok (.invocation arguments) ↔ ∃ as : List (String × Literal),
        v = .ofEntries (as.map fun a => (a.1, a.2.toValue)) ∧ arguments = Dict.ofList as := by
  refine ⟨fun v l => read_eq_ok_iff.trans eq_comm, fun v e => read_eq_error_iff,
    fun v es d hv h => Declaration.default_of_read hv h, fun v n => ?_, fun v arguments => ?_⟩
  · exact ExecutorReference.read_name_iff
  · exact ExecutorReference.read_invocation_iff

/-- A default and an argument that look like an integer and a flag, and a float that is whole. -/
theorem read_as_written_retries :
    let es : List (Value × Value) :=
      [(.str "type", .str "string"), (.str "default", .str "3")]
    let d : Declaration := ⟨.string, some (.str "3"), none, none⟩
    let as : List (String × Literal) :=
      [("name", .str "node"), ("caching", .str "true"), ("retries", .int 3)]
    (IsMapping (Value.map es) es ∧ Declaration.read (Value.map es) = .ok d ∧
      Under es "default" (.str "3")) ∧
    (∃ l, Value.str "3" = l.toValue ∧ d.default = some l) ∧
    ExecutorReference.read (Value.ofEntries [("name", .str "node"), ("caching", .str "true"),
      ("retries", .int 3)]) = .ok (.invocation (Dict.ofList as)) ∧
    Literal.read (Value.float (.ofInt 3)) = .error ⟨.noVariant "ParameterValue", none⟩ := by
  intro es d as
  obtain ⟨-, herror, hdefault, -, hargs⟩ := read_as_written
  have hd : Declaration.read (Value.map es) = .ok d := by decide
  have hu : Under es "default" (.str "3") := ⟨_, List.mem_cons_of_mem _ List.mem_cons_self, rfl⟩
  refine ⟨⟨fun _ => rfl, hd, hu⟩, ?_, ?_, (herror _ _).mpr ⟨.float _, rfl⟩⟩
  · rcases (hdefault _ es d (fun _ => rfl) hd).1 _ hu with ⟨h, -⟩ | h
    · cases h
    · exact h
  · exact (hargs _ _).mpr ⟨as, rfl, rfl⟩

end Literal

end JobConfig

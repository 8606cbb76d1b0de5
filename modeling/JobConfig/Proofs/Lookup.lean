import JobConfig.Context
import JobConfig.Proofs.Entries
import JobConfig.Proofs.Outcome
import Mathlib.Data.List.Nodup

/-!
# What a reference stands for

A reference is to the parameter of its name in a list (`Parameters.get?_eq_some_iff`), wherever in
the list it stands (`Parameters.get?_of_perm`). It has a value exactly if one is supplied that the
parameter does not reject, or if none is supplied and the parameter has a default
(`Context.lookup_eq_ok_iff`); a default is never one that its own parameter rejects
(`Parameter.reject?_default`). A value that is supplied and rejected is the error, whatever the
default (`Context.lookup_of_rejected`). Descriptions play no part (`Context.lookup_congr`).
-/

namespace JobConfig

/-! ## Parameters -/

namespace Parameter

/-- The parameter with another description, or none. -/
def describe (p : Parameter) (description : Option String) : Parameter :=
  ⟨p.name, { p.declaration with description }, p.valid⟩

/-- A parameter does not reject its own default. -/
theorem reject?_default {p : Parameter} {value : Literal} (h : p.declaration.default = some value) :
    p.reject? value = none := by
  have hv := p.valid
  unfold Declaration.violation? at hv
  split at hv
  · split at hv
    · cases hv
    · rwa [h] at hv
  · cases hv

/-- Allowed values are what an enum has, and no other parameter. -/
theorem allowed_isSome_iff (p : Parameter) :
    p.declaration.allowed.isSome = true ↔ p.type = .enum := by
  have hv := p.valid
  unfold Declaration.violation? at hv
  split at hv
  · split at hv
    · cases hv
    · rename_i he
      unfold Declaration.enumViolation? at he
      split at he <;> simp_all [type]
  · cases hv

/-- A parameter takes the values of its type's shape and, as an enum, of these its own. -/
theorem reject?_eq_none_iff {p : Parameter} {value : Literal} :
    p.reject? value = none ↔ p.type.accepts value = true ∧
      (p.type = .enum → ∃ text ∈ p.declaration.allowed.getD [], value = .str text) := by
  rw [← allowed_isSome_iff]
  unfold reject? Declaration.reject? type
  split
  · rename_i ha
    cases hd : p.declaration.allowed with
    | none => simp [ha]
    | some allowed =>
      have ht : p.declaration.type = .enum := (allowed_isSome_iff p).mp (by simp [hd])
      cases value with
      | str given => simp [ha]
      | bool b => simp [ht, ParameterType.accepts] at ha
      | int n => simp [ht, ParameterType.accepts] at ha
  · rename_i ha
    simp [ha]

/-- A value that a parameter takes can be its default. -/
theorem declare_withDefault (p : Parameter) {value : Literal} (h : p.reject? value = none) :
    ∃ p', declare p.name { p.declaration with default := some value } = .ok p' ∧
      p'.name = p.name ∧ p'.declaration = { p.declaration with default := some value } := by
  have hv := p.valid
  unfold Declaration.violation? at hv
  split at hv
  · rename_i hn
    split at hv
    · cases hv
    · rename_i he
      have hv' : { p.declaration with default := some value }.violation? p.name = none := by
        have he' : { p.declaration with default := some value }.enumViolation? p.name = none := he
        rw [Declaration.violation?, if_pos hn, he']
        exact h
      exact ⟨⟨_, _, hv'⟩, declare_eq_ok_iff.mpr ⟨rfl, rfl⟩, rfl, rfl⟩
  · cases hv

end Parameter

/-! ## Lists of parameters -/

namespace Parameters

variable {ps ps' : Parameters} {p : Parameter} {name : String}

theorem mem_of_get? (h : ps.get? name = some p) : p ∈ ps.items :=
  List.mem_of_find?_eq_some h

theorem name_of_get? (h : ps.get? name = some p) : p.name = name := by
  unfold get? at h
  simpa using List.find?_some h

/-- The parameter that is found is the one of the list that has the name. -/
theorem get?_eq_some_iff : ps.get? name = some p ↔ p ∈ ps.items ∧ p.name = name := by
  refine ⟨fun h => ⟨mem_of_get? h, name_of_get? h⟩, ?_⟩
  rintro ⟨hp, rfl⟩
  cases hf : ps.get? p.name with
  | none => exact absurd (List.find?_eq_none.mp hf p hp) (by simp)
  | some q => rw [List.inj_on_of_nodup_map ps.distinct (mem_of_get? hf) hp (name_of_get? hf)]

/-- The order of the declarations does not matter. -/
theorem get?_of_perm (h : ps'.items.Perm ps.items) (name : String) :
    ps'.get? name = ps.get? name := by
  ext p
  rw [get?_eq_some_iff, get?_eq_some_iff, h.mem_iff]

/-- A parameter is added at the end. -/
theorem items_add (h : ps.add p = .ok ps') : ps'.items = ps.items ++ [p] := by
  unfold add at h
  split at h
  · cases h
  · cases h
    rfl

/-- A parameter that is added does not hide another. -/
theorem get?_add_of_ne (h : ps.add p = .ok ps') (hn : p.name ≠ name) :
    ps'.get? name = ps.get? name := by
  rw [get?, get?, items_add h]
  simp [List.find?_append, hn]

theorem find?_map_of_name_eq {f : Parameter → Parameter} (hf : ∀ q, (f q).name = q.name)
    (qs : List Parameter) (name : String) :
    (qs.map f).find? (fun q => q.name = name) = (qs.find? fun q => q.name = name).map f := by
  simp only [List.find?_map, Function.comp_def, hf]

/-- Lists that differ in descriptions only have the same parameters but for these. -/
theorem map_describe_get? (h : ps'.items.map (·.describe none) = ps.items.map (·.describe none))
    (name : String) :
    (ps'.get? name).map (·.describe none) = (ps.get? name).map (·.describe none) := by
  have hf (q : Parameter) : (q.describe none).name = q.name := rfl
  rw [get?, get?, ← find?_map_of_name_eq hf, ← find?_map_of_name_eq hf, h]

/-! ### Replacing a parameter -/

theorem name_ite_eq (p q : Parameter) : (if q.name = p.name then p else q).name = q.name := by
  split <;> simp_all

/-- The parameters with `p` in the place of the one that has its name. -/
def put (ps : Parameters) (p : Parameter) : Parameters where
  items := ps.items.map fun q => if q.name = p.name then p else q
  distinct := by
    have h := ps.distinct
    simpa only [parameterNames, List.map_map, Function.comp_def, name_ite_eq] using h

theorem get?_put (ps : Parameters) (p : Parameter) (name : String) :
    (ps.put p).get? name = (ps.get? name).map fun q => if q.name = p.name then p else q :=
  find?_map_of_name_eq (name_ite_eq p) ps.items name

theorem get?_put_self {q : Parameter} (hq : q ∈ ps.items) (hn : p.name = q.name) :
    (ps.put p).get? q.name = some p := by
  rw [get?_put, get?_eq_some_iff.mpr ⟨hq, rfl⟩, Option.map_some, if_pos hn.symm]

theorem get?_put_of_ne (hn : p.name ≠ name) : (ps.put p).get? name = ps.get? name := by
  rw [get?_put]
  cases h : ps.get? name with
  | none => rfl
  | some q =>
    have hq : q.name ≠ p.name := fun he => hn (name_of_get? h ▸ he.symm)
    rw [Option.map_some, if_neg hq]

end Parameters

/-! ## Values -/

namespace Context

variable {ctx ctx' : Context} {ps ps' : Parameters} {p : Parameter} {name : String}
  {value : Literal}

theorem lookup_of_supplied (hp : ps.get? name = some p) (hv : ctx.overrides.get? name = some value)
    (hr : p.reject? value = none) : ctx.lookup ps name = .ok value := by
  simp only [lookup, hp, hv, hr]

/-- A supplied value that is rejected is the error; the default is not looked at. -/
theorem lookup_of_rejected {cause : BuildError} (hp : ps.get? name = some p)
    (hv : ctx.overrides.get? name = some value) (hr : p.reject? value = some cause) :
    ctx.lookup ps name = .error (.invalidOverride name cause) := by
  simp only [lookup, hp, hv, hr]

theorem lookup_of_default (hp : ps.get? name = some p) (hv : ctx.overrides.get? name = none)
    (hd : p.declaration.default = some value) : ctx.lookup ps name = .ok value := by
  simp only [lookup, hp, hv, hd]

/-- A reference has a value exactly if its parameter is declared and takes the value, which is the
one supplied or, when none is, the default. -/
theorem lookup_eq_ok_iff : ctx.lookup ps name = .ok value ↔
    ∃ p, ps.get? name = some p ∧ p.reject? value = none ∧
      (ctx.overrides.get? name = some value ∨
        ctx.overrides.get? name = none ∧ p.declaration.default = some value) := by
  constructor
  · intro h
    unfold lookup at h
    split at h
    · cases h
    · rename_i p hp
      refine ⟨p, hp, ?_⟩
      split at h
      · rename_i given hg
        split at h
        · cases h
        · rename_i hr
          cases h
          exact ⟨hr, .inl hg⟩
      · rename_i hg
        split at h
        · rename_i given hd
          cases h
          exact ⟨Parameter.reject?_default hd, .inr ⟨hg, hd⟩⟩
        · cases h
  · rintro ⟨p, hp, hr, hv | ⟨hv, hd⟩⟩
    · exact lookup_of_supplied hp hv hr
    · exact lookup_of_default hp hv hd

/-- What a reference stands for depends on the supplied value and on the declaration of its
parameter, its description apart. -/
theorem lookup_congr (ho : ctx.overrides.get? name = ctx'.overrides.get? name)
    (hp : (ps.get? name).map (·.describe none) = (ps'.get? name).map (·.describe none)) :
    ctx.lookup ps name = ctx'.lookup ps' name := by
  unfold lookup
  rw [ho]
  cases hq : ps.get? name with
  | none =>
    cases hq' : ps'.get? name with
    | none => rfl
    | some q' => simp [hq, hq'] at hp
  | some q =>
    cases hq' : ps'.get? name with
    | none => simp [hq, hq'] at hp
    | some q' =>
      rw [hq, hq', Option.map_some, Option.map_some, Option.some.injEq] at hp
      have hr (v : Literal) : q.reject? v = q'.reject? v := congrArg (·.reject? v) hp
      have hd : q.declaration.default = q'.declaration.default :=
        congrArg (·.declaration.default) hp
      simp only [hr, hd]

theorem lookup_withOverride_of_ne {other : String} (h : other ≠ name) (value : Literal)
    (ps : Parameters) : (ctx.withOverride other value).lookup ps name = ctx.lookup ps name :=
  lookup_congr (by rw [withOverride, Dict.get?_insert, if_neg h]) rfl

end Context

end JobConfig

import JobConfig.Proofs.Checked
import JobConfig.Proofs.ParameterRoundTrip

/-!
# Which parameters can be declared

A named declaration is sound (`Declaration.Sound`) when its name can be one, it lists allowed values
exactly as an enum has to, and its default has the shape of the type and is one of the values that
are allowed. One that is not sound breaks rules (`Declaration.Breaks`), each of which is told by an
error of its own. Whichever constructor it is that is called, it gives the very parameter that is
asked for if the declaration is sound, and else the error of the first rule that is broken
(`Construction.builds_iff_sound`).
-/

namespace JobConfig

/-! ## Rules -/

/-- A literal of the shape that a type wants. -/
inductive ParameterType.HasShape : ParameterType → Literal → Prop where
  | string (text : String) : HasShape .string (.str text)
  | boolean (b : Bool) : HasShape .boolean (.bool b)
  | integer (n : Int64) : HasShape .integer (.int n)
  | enum (text : String) : HasShape .enum (.str text)
  | environment (text : String) : HasShape .environment (.str text)

theorem ParameterType.accepts_iff {t : ParameterType} {l : Literal} :
    t.accepts l = true ↔ t.HasShape l := by
  constructor
  · intro h
    unfold accepts at h
    split at h
    · exact .string _
    · exact .enum _
    · exact .environment _
    · exact .boolean _
    · exact .integer _
    · cases h
  · rintro ⟨⟩ <;> rfl

namespace Declaration

/-- Allowed values are listed as the type wants: some for an enum, none for any other type. -/
def Listed (d : Declaration) : Prop :=
  if d.type = .enum then ∃ v vs, d.allowed = some (v :: vs) else d.allowed = none

/-- A declaration that breaks no rule under its name. -/
structure Sound (name : String) (d : Declaration) : Prop where
  named : name ≠ "" ∧ ∀ c ∈ name.toList, isBlank c = false
  listed : d.Listed
  shaped : ∀ l ∈ d.default, d.type.HasShape l
  allowed : d.type = .enum → ∀ l ∈ d.default, ∃ vs ∈ d.allowed, ∃ v ∈ vs, l = .str v

/-- A rule that a declaration breaks under its name, whichever others it breaks: its place in the
order of the rules, and the error that tells of it. -/
inductive Breaks (name : String) (d : Declaration) : Nat → BuildError → Prop where
  | name (h : name = "" ∨ ∃ c ∈ name.toList, isBlank c = true) :
    Breaks name d 0 (.invalidName .parameter name)
  | missing (ht : d.type = .enum) (ha : d.allowed = none ∨ d.allowed = some []) :
    Breaks name d 1 (.missingEnumValues name)
  | unexpected {vs : List String} (ht : d.type ≠ .enum) (ha : d.allowed = some vs) :
    Breaks name d 1 (.unexpectedEnumValues name d.type)
  | shape {l : Literal} (hd : d.default = some l) (hs : ¬ d.type.HasShape l) :
    Breaks name d 2 (.typeMismatch name d.type l.kindName)
  | value {text : String} {vs : List String} (ht : d.type = .enum) (ha : d.allowed = some vs)
      (hd : d.default = some (.str text)) (hv : text ∉ vs) :
    Breaks name d 3 (.invalidEnumDefault name text vs)

/-- The error of the first rule that a declaration breaks. -/
def FirstBroken (name : String) (d : Declaration) (e : BuildError) : Prop :=
  ∃ i, d.Breaks name i e ∧ ∀ j e', d.Breaks name j e' → i ≤ j

variable {name : String} {d : Declaration} {i : Nat} {e e' : BuildError}

/-- A declaration breaks a rule in one way. -/
theorem Breaks.unique (h : d.Breaks name i e) (h' : d.Breaks name i e') : e = e' := by
  cases h with
  | name _ =>
    cases h'
    rfl
  | missing ht _ =>
    cases h' with
    | missing _ _ => rfl
    | unexpected ht' _ => exact absurd ht ht'
  | unexpected ht _ =>
    cases h' with
    | missing ht' _ => exact absurd ht' ht
    | unexpected _ _ => rfl
  | shape hd _ =>
    cases h' with
    | shape hd' _ =>
      cases hd.symm.trans hd'
      rfl
  | value _ ha hd _ =>
    cases h' with
    | value _ ha' hd' _ =>
      cases ha.symm.trans ha'
      cases hd.symm.trans hd'
      rfl

theorem FirstBroken.unique (h : d.FirstBroken name e) (h' : d.FirstBroken name e') : e = e' := by
  obtain ⟨i, hb, hi⟩ := h
  obtain ⟨j, hb', hj⟩ := h'
  obtain rfl := Nat.le_antisymm (hi j e' hb') (hj i e hb)
  exact hb.unique hb'

/-! ### What is kept to -/

theorem isName_toList_iff : isName name.toList = true ↔
    name ≠ "" ∧ ∀ c ∈ name.toList, isBlank c = false := by
  rw [isName_iff, Ne, Ne, String.toList_eq_nil_iff]

theorem breaks_name_of_isName_eq_false (h : isName name.toList = false) :
    d.Breaks name 0 (.invalidName .parameter name) := by
  refine .name ?_
  by_contra hn
  simp only [not_or, not_exists, not_and, Bool.not_eq_true] at hn
  rw [isName_toList_iff.mpr hn] at h
  cases h

theorem enumViolation?_eq_none_iff : d.enumViolation? name = none ↔ d.Listed := by
  obtain ⟨t, default, description, allowed⟩ := d
  unfold enumViolation? Listed
  cases t <;> rcases allowed with - | - | ⟨v, vs⟩ <;> simp

theorem breaks_of_enumViolation? (h : d.enumViolation? name = some e) : d.Breaks name 1 e := by
  unfold enumViolation? at h
  split at h
  · cases h
  · rename_i ht hne
    cases h
    refine .missing ht ?_
    rcases ha : d.allowed with - | - | ⟨v, vs⟩
    · exact .inl rfl
    · exact .inr rfl
    · exact (hne v vs ha).elim
  · cases h
  · rename_i ha _ ht
    cases h
    exact .unexpected ht ha

theorem Breaks.pos (hn : isName name.toList = true) (h : d.Breaks name i e) : 0 < i := by
  rw [isName_toList_iff] at hn
  cases h with
  | name h =>
    rcases h with h | ⟨c, hc, hb⟩
    · exact absurd h hn.1
    · simp [hn.2 c hc] at hb
  | _ => decide

theorem Breaks.one_lt (hn : isName name.toList = true) (hl : d.Listed) (h : d.Breaks name i e) :
    1 < i := by
  have hi := h.pos hn
  unfold Listed at hl
  cases h with
  | name _ => cases hi
  | missing ht ha =>
    rw [if_pos ht] at hl
    obtain ⟨v, vs, hv⟩ := hl
    simp [hv] at ha
  | unexpected ht ha =>
    rw [if_neg ht, ha] at hl
    cases hl
  | _ => decide

theorem Breaks.two_lt (hn : isName name.toList = true) (hl : d.Listed)
    (hs : ∀ l ∈ d.default, d.type.HasShape l) (h : d.Breaks name i e) : 2 < i := by
  have hi := h.one_lt hn hl
  cases h with
  | shape hd hs' => exact absurd (hs _ hd) hs'
  | value _ _ _ _ => decide
  | _ => omega

/-- Only an enum lists values. -/
theorem Listed.type_eq {vs : List String} (h : d.Listed) (ha : d.allowed = some vs) :
    d.type = .enum := by
  unfold Listed at h
  split at h
  · assumption
  · rw [ha] at h
    cases h

/-! ## Declaring -/

theorem firstBroken_of_violation? (h : d.violation? name = some e) : d.FirstBroken name e := by
  unfold violation? at h
  split at h
  · rename_i hn
    split at h
    · rename_i he
      cases h
      exact ⟨1, breaks_of_enumViolation? he, fun _ _ h' => h'.pos hn⟩
    · rename_i he
      have hl := enumViolation?_eq_none_iff.mp he
      obtain ⟨l, hd, hr⟩ := Option.bind_eq_some_iff.mp h
      unfold reject? at hr
      split at hr
      · rename_i hs
        rw [ParameterType.accepts_iff] at hs
        split at hr
        · rename_i vs text ha
          split at hr
          · cases hr
          · rename_i hv
            cases hr
            refine ⟨3, .value (hl.type_eq ha) ha hd hv, fun _ _ h' => h'.two_lt hn hl ?_⟩
            rintro _ hd'
            cases hd.symm.trans hd'
            exact hs
        · cases hr
      · rename_i hs
        rw [ParameterType.accepts_iff] at hs
        cases hr
        exact ⟨2, .shape hd hs, fun _ _ h' => h'.one_lt hn hl⟩
  · rename_i hn
    cases h
    exact ⟨0, breaks_name_of_isName_eq_false (Bool.eq_false_iff.mpr hn), fun j _ _ => j.zero_le⟩

theorem Sound.not_breaks (hs : d.Sound name) : ¬ d.Breaks name i e := by
  intro h
  have hi := h.two_lt (isName_toList_iff.mpr hs.named) hs.listed hs.shaped
  cases h with
  | value ht ha hd hv =>
    obtain ⟨vs, hvs, v, hm, hl⟩ := hs.allowed ht _ hd
    cases ha.symm.trans hvs
    cases hl
    exact hv hm
  | _ => omega

theorem sound_of_violation?_eq_none (h : d.violation? name = none) : d.Sound name := by
  -- As a parameter, the declaration is known for what it takes.
  let p : Parameter := ⟨name, d, h⟩
  have hr (l : Literal) (hd : l ∈ d.default) := Parameter.reject?_eq_none_iff.mp
    (Parameter.reject?_default (p := p) hd)
  unfold violation? at h
  split at h
  · rename_i hn
    split at h
    · cases h
    · rename_i hl
      refine ⟨isName_toList_iff.mp hn, enumViolation?_eq_none_iff.mp hl, ?_, ?_⟩
      · exact fun l hd => ParameterType.accepts_iff.mp (hr l hd).1
      · intro ht l hd
        obtain ⟨text, hm, rfl⟩ := (hr l hd).2 ht
        cases ha : d.allowed with
        | none => simp [p, ha] at hm
        | some vs => exact ⟨vs, rfl, text, by simpa [p, ha] using hm, rfl⟩
  · cases h

theorem violation?_eq_none_iff : d.violation? name = none ↔ d.Sound name := by
  refine ⟨sound_of_violation?_eq_none, fun h => ?_⟩
  cases hv : d.violation? name with
  | none => rfl
  | some e =>
    obtain ⟨i, hb, -⟩ := firstBroken_of_violation? hv
    exact absurd hb h.not_breaks

theorem violation?_eq_some_iff : d.violation? name = some e ↔ d.FirstBroken name e := by
  refine ⟨firstBroken_of_violation?, fun h => ?_⟩
  cases hv : d.violation? name with
  | none =>
    obtain ⟨i, hb, -⟩ := h
    exact absurd hb (violation?_eq_none_iff.mp hv).not_breaks
  | some e' => rw [h.unique (firstBroken_of_violation? hv)]

end Declaration

namespace Construction

/-- The name that a parameter is to have. -/
def name : Construction → String
  | declared name _ | string name _ _ | boolean name _ _ | integer name _ _ | environment name _ _
  | enumeration name _ _ _ => name

/-- What is to be declared of it. -/
def declaration : Construction → Declaration
  | declared _ d => d
  | string _ default description => ⟨.string, default.map .str, description, none⟩
  | boolean _ default description => ⟨.boolean, default.map .bool, description, none⟩
  | integer _ default description => ⟨.integer, default.map .int, description, none⟩
  | environment _ default description => ⟨.environment, default.map .str, description, none⟩
  | enumeration _ allowed default description =>
    ⟨.enum, default.map .str, description, some allowed⟩

theorem build_eq_declare (c : Construction) :
    c.build = Parameter.declare c.name c.declaration := by
  cases c <;> rfl

/-- A constructor gives a parameter exactly if the declaration is sound: the one that it is called
for, which takes its own default. Otherwise the error is that of the first rule that is broken: on
the name, on the values that are listed, on the shape of the default, on its being listed. The
constructors for one type do as the general one does for the same arguments, and so does a
declaration that is read from what is written of them. -/
theorem builds_iff_sound (c : Construction) :
    ((∃ p, c.build = .ok p) ↔ c.declaration.Sound c.name) ∧
    (∀ p, c.build = .ok p → p.name = c.name ∧ p.declaration = c.declaration ∧
      ∀ l ∈ c.declaration.default, p.reject? l = none) ∧
    (∀ e, c.build = .error e ↔ c.declaration.FirstBroken c.name e) ∧
    c.build = Parameter.declare c.name c.declaration ∧
    ∃ d, Declaration.read c.declaration.toValue = .ok d ∧ Parameter.declare c.name d = c.build := by
  have hb := c.build_eq_declare
  refine ⟨?_, fun p hp => ?_, fun e => ?_, hb, ?_⟩
  · rw [← Declaration.violation?_eq_none_iff, hb]
    constructor
    · rintro ⟨p, hp⟩
      obtain ⟨hn, hd⟩ := Parameter.declare_eq_ok_iff.mp hp
      exact hn ▸ hd ▸ p.valid
    · intro hv
      exact ⟨⟨c.name, c.declaration, hv⟩, Parameter.declare_eq_ok_iff.mpr ⟨rfl, rfl⟩⟩
  · rw [hb] at hp
    obtain ⟨hn, hd⟩ := Parameter.declare_eq_ok_iff.mp hp
    exact ⟨hn, hd, fun l hl => Parameter.reject?_default (hd ▸ hl)⟩
  · rw [hb, Parameter.declare_eq_error_iff, Declaration.violation?_eq_some_iff]
  · exact ⟨c.declaration, c.declaration.read_toValue, hb.symm⟩

/-- A default that is listed, and a declaration that breaks two rules, the first of which counts. -/
theorem builds_iff_sound_target :
    let c := enumeration "target" ["all", "docs"] (some "docs") none
    let c' := declared "target" ⟨.string, some (.int 3), none, some []⟩
    (∃ p, c.build = .ok p ∧ p.name = "target" ∧ p.reject? (.str "docs") = none) ∧
      c'.build = .error (.unexpectedEnumValues "target" .string) := by
  intro c c'
  have hs : c.declaration.Sound c.name := {
    named := Declaration.isName_toList_iff.mp (by decide)
    listed := ⟨"all", ["docs"], rfl⟩
    shaped := by
      rintro _ ⟨⟩
      exact .enum "docs"
    allowed := by
      rintro - _ ⟨⟩
      exact ⟨_, rfl, "docs", by decide, rfl⟩ }
  have hb : c'.declaration.FirstBroken c'.name (.unexpectedEnumValues "target" .string) :=
    ⟨1, .unexpected nofun rfl, fun j e h => h.pos (by decide)⟩
  obtain ⟨hc, hp, -⟩ := builds_iff_sound c
  obtain ⟨p, h⟩ := hc.mpr hs
  obtain ⟨hn, -, hr⟩ := hp p h
  obtain ⟨-, -, he, -⟩ := builds_iff_sound c'
  exact ⟨⟨p, h, hn, hr _ rfl⟩, (he _).mpr hb⟩

end Construction

end JobConfig

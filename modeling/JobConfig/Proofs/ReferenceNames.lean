import JobConfig.Proofs.FieldTypes
import JobConfig.Proofs.JobRoundTrip

/-!
# References and the names they keep

A reusable executor is referred to by its name, and by a mapping in which its arguments stand beside
the name if it has some. Every argument is there with the value it was given last. As long as none is
called `name`, so is the executor's name, and the arguments are in the order in which they were given
first (`Executor.keeps_reference_iff`); so executors are told apart by their references
(`Executor.reference_injective`). An argument called `name` takes the name's place, and the
executor's own name is said nowhere (`Executor.reference_of_mem`).
-/

namespace JobConfig

theorem Literal.toValue_injective : Function.Injective toValue := fun a b h => by
  have ha := ofValue?_toValue a
  rw [h, ofValue?_toValue] at ha
  exact (Option.some.inj ha).symm

/-- A name put before others, and dropped where it comes again, keeps the order of the others unless
it was among them, but not the first. -/
theorem sublist_eraseDups_cons_iff {names : List String} (h : names.Nodup) (name : String) :
    names.Sublist (name :: names).eraseDups ↔ name ∉ names ∨ names.head? = some name := by
  rw [List.eraseDups_cons, eraseDups_of_nodup (h.filter _), List.sublist_cons_iff]
  constructor
  · rintro (hs | ⟨rest, rfl, -⟩)
    · refine .inl fun hm => ?_
      have hf := (List.mem_filter.mp (hs.subset hm)).2
      simp at hf
    · exact .inr rfl
  · rintro (hn | hh)
    · have hf : names.filter (fun other => !other == name) = names :=
        List.filter_bne_eq_self_of_not_mem hn
      rw [hf]
      exact .inl (.refl _)
    · obtain ⟨rest, rfl⟩ := List.head?_eq_some_iff.mp hh
      have hf : rest.filter (fun other => !other == name) = rest :=
        List.filter_bne_eq_self_of_not_mem (List.nodup_cons.mp h).1
      refine .inr ⟨rest, rfl, ?_⟩
      rw [List.filter_cons_of_neg (by simp), hf]

namespace Executor

/-! ## What a reference says -/

theorem keys_spelledOut (name : String) (arguments : Dict Literal) :
    (spelledOut name arguments).keys = ("name" :: arguments.keys).eraseDups := by
  rw [spelledOut, Dict.keys_ofList, entryKeys_cons, entryKeys_map]
  rfl

/-- Under each name a reference says what was given for it last, and under `name`, if nothing was,
the name of the executor. -/
theorem get?_spelledOut (name : String) (arguments : Dict Literal) (argument : String) :
    (spelledOut name arguments).get? argument = ((arguments.get? argument).map Literal.toValue).or
      (if "name" = argument then some (.str name) else none) := by
  have hd : (entryKeys (arguments.entries.map fun a => (a.1, a.2.toValue))).Nodup := by
    rw [entryKeys_map]
    exact arguments.distinct
  rw [spelledOut, Dict.get?_ofList, List.reverse_cons, valueAt?_append,
    valueAt?_of_perm hd (List.reverse_perm _), valueAt?_map]
  rfl

/-! ## Calls -/

/-- A reusable executor as it is made: by its name, with one argument set after the other. -/
def called (name : String) (calls : List (String × Literal)) : Executor :=
  calls.foldl (fun e c => e.withArgument c.1 c.2) (.reusable name ∅)

theorem called_eq (name : String) (calls : List (String × Literal)) :
    called name calls = .reusable name (.ofList calls) := by
  induction calls using List.reverseRecOn with
  | nil => rfl
  | append_singleton calls c ih =>
    rw [Dict.ofList_append_singleton, called, List.foldl_append, ← called, ih]
    rfl

theorem fragment_called {ctx : Context} (h : ctx.flatten = false) (name : String)
    (calls : List (String × Literal)) :
    (called name calls).fragment ctx = .ok [("executor", reference name (.ofList calls))] := by
  rw [fragment_eq_written _ h, called_eq]
  rfl

/-- A reference says the name of the executor and all that it was given: nothing but the name if
there is no argument, and else, beside the name, every argument with the value it was given last,
the arguments in the order in which they were given first. -/
inductive Keeps (name : String) : List (String × Literal) → Value → Prop where
  | alone : Keeps name [] (.str name)
  | beside {calls : List (String × Literal)} {es : List (String × Value)} (hc : calls ≠ [])
      (hd : (entryKeys es).Nodup) (hn : ("name", .str name) ∈ es)
      (hv : ∀ argument l, valueAt? argument calls.reverse = some l → (argument, l.toValue) ∈ es)
      (ho : (entryKeys calls).eraseDups.Sublist (entryKeys es)) : Keeps name calls (.ofEntries es)

theorem keeps_ofEntries_iff {name : String} {calls : List (String × Literal)}
    {es : List (String × Value)} (hc : calls ≠ []) : Keeps name calls (.ofEntries es) ↔
      (entryKeys es).Nodup ∧ ("name", .str name) ∈ es ∧
        (∀ argument l, valueAt? argument calls.reverse = some l → (argument, l.toValue) ∈ es) ∧
          (entryKeys calls).eraseDups.Sublist (entryKeys es) := by
  constructor
  · intro h
    generalize hw : Value.ofEntries es = w at h
    cases h with
    | alone => exact absurd rfl hc
    | beside _ hd hn hv ho =>
      rw [Value.ofEntries_injective hw]
      exact ⟨hd, hn, hv, ho⟩
  · rintro ⟨hd, hn, hv, ho⟩
    exact .beside hc hd hn hv ho

theorem head?_eraseDups (names : List String) : names.eraseDups.head? = names.head? := by
  cases names with
  | nil => rfl
  | cons name names => rw [List.eraseDups_cons, List.head?_cons, List.head?_cons]

section Calls

variable (name : String) (calls : List (String × Literal))

/-- Every argument is there, whatever it is called. -/
theorem mem_spelledOut_of_given {argument : String} {l : Literal}
    (h : valueAt? argument calls.reverse = some l) :
    (argument, l.toValue) ∈ (spelledOut name (.ofList calls)).entries := by
  rw [Dict.mem_entries_iff, get?_spelledOut, Dict.get?_ofList, h]
  rfl

/-- The name is there unless an argument takes its place. -/
theorem name_mem_spelledOut_iff : ("name", .str name) ∈ (spelledOut name (.ofList calls)).entries ↔
    ∀ l, valueAt? "name" calls.reverse = some l → l = .str name := by
  rw [Dict.mem_entries_iff, get?_spelledOut, Dict.get?_ofList, if_pos rfl]
  cases valueAt? "name" calls.reverse with
  | none => simp
  | some l =>
    have hl : l.toValue = .str name ↔ l = .str name :=
      Literal.toValue_injective.eq_iff (b := .str name)
    simp [hl]

/-- The arguments are in order unless one of them has the place of the name. -/
theorem order_spelledOut_iff :
    (entryKeys calls).eraseDups.Sublist (spelledOut name (.ofList calls)).keys ↔
      "name" ∉ entryKeys calls ∨ (entryKeys calls).head? = some "name" := by
  have hk : (Dict.ofList calls).keys = (entryKeys calls).eraseDups := Dict.keys_ofList calls
  have hd : (entryKeys calls).eraseDups.Nodup := hk ▸ (Dict.ofList calls).distinct
  rw [keys_spelledOut, hk, sublist_eraseDups_cons_iff hd, List.mem_eraseDups, head?_eraseDups]

/-- The reference keeps all exactly if no argument is called `name`, or if the first one is and was
given the executor's very name last. -/
theorem keeps_reference_iff : Keeps name calls (reference name (.ofList calls)) ↔
    "name" ∉ entryKeys calls ∨ (entryKeys calls).head? = some "name" ∧
      valueAt? "name" calls.reverse = some (.str name) := by
  by_cases hc : calls = []
  · subst hc
    exact iff_of_true .alone (.inl List.not_mem_nil)
  have he : (Dict.ofList calls).isEmpty = false := by
    rwa [Dict.isEmpty_ofList, List.isEmpty_eq_false_iff]
  rw [reference_eq_spelledOut he, keeps_ofEntries_iff hc, and_iff_right (Dict.distinct _),
    and_iff_right fun _ _ => mem_spelledOut_of_given name calls, name_mem_spelledOut_iff]
  refine (and_congr_right' (order_spelledOut_iff name calls)).trans ?_
  have hm : valueAt? "name" calls.reverse = none ↔ "name" ∉ entryKeys calls := by
    rw [valueAt?_eq_none_iff]
    simp [entryKeys]
  rw [← hm]
  cases valueAt? "name" calls.reverse <;> simp [and_comm]

end Calls

/-- An argument called `name` leaves nothing of the executor's own name. -/
theorem reference_of_mem {arguments : Dict Literal} (h : "name" ∈ arguments.keys)
    (name name' : String) : reference name arguments = reference name' arguments := by
  have he : arguments.isEmpty = false := by
    rw [Dict.isEmpty, List.isEmpty_eq_false_iff]
    intro hn
    rw [Dict.keys, hn] at h
    cases h
  obtain ⟨l, hl⟩ : ∃ l, arguments.get? "name" = some l :=
    Option.isSome_iff_exists.mp (valueAt?_isSome_iff.mpr h)
  have hs : spelledOut name arguments = spelledOut name' arguments := by
    refine Dict.ext_get? (by rw [keys_spelledOut, keys_spelledOut]) fun argument => ?_
    rw [get?_spelledOut, get?_spelledOut]
    by_cases ha : "name" = argument
    · rw [← ha, hl]
      rfl
    · rw [if_neg ha, if_neg ha]
  rw [reference_eq_spelledOut he, reference_eq_spelledOut he, hs]

theorem map_toValue_injective :
    Function.Injective (List.map fun a : String × Literal => (a.1, a.2.toValue)) := by
  refine List.map_injective_iff.mpr ?_
  rintro ⟨argument, l⟩ ⟨argument', l'⟩ h
  simp only [Prod.mk.injEq] at h
  rw [h.1, Literal.toValue_injective h.2]

/-- References without an argument called `name` differ where the executors do. -/
theorem reference_injective {name name' : String} {arguments arguments' : Dict Literal}
    (h : "name" ∉ arguments.keys) (h' : "name" ∉ arguments'.keys)
    (hr : reference name arguments = reference name' arguments') :
    name = name' ∧ arguments = arguments' := by
  cases he : arguments.isEmpty <;> cases he' : arguments'.isEmpty
  · rw [reference_eq h he, reference_eq h' he'] at hr
    have hes := map_toValue_injective (Value.ofEntries_injective hr)
    obtain ⟨hn, ha⟩ := List.cons.inj hes
    obtain ⟨-, hn⟩ := Prod.mk.inj hn
    exact ⟨Literal.str.inj hn, Dict.ext ha⟩
  · rw [reference_eq h he, reference, if_pos he'] at hr
    cases hr
  · rw [reference_eq h' he', reference, if_pos he] at hr
    cases hr
  · rw [reference, if_pos he, reference, if_pos he'] at hr
    have ha : arguments = ∅ := Dict.eq_empty_of_isEmpty he
    have ha' : arguments' = ∅ := Dict.eq_empty_of_isEmpty he'
    exact ⟨Value.str.inj hr, ha.trans ha'.symm⟩

/-- A reference keeps the name and the arguments exactly if no argument is called `name`, or if the
first one is and was given the very name last. Where no argument is called `name`, executors with
equal references are equal; an argument called `name` makes executors of all names alike. -/
theorem reference_keeps_iff {ctx : Context} (h : ctx.flatten = false) :
    (∀ (name : String) (calls : List (String × Literal)),
      (∃ v, (called name calls).fragment ctx = .ok [("executor", v)] ∧ Keeps name calls v) ↔
        "name" ∉ entryKeys calls ∨ (entryKeys calls).head? = some "name" ∧
          valueAt? "name" calls.reverse = some (.str name)) ∧
    (∀ (name name' : String) (calls calls' : List (String × Literal)),
      "name" ∉ entryKeys calls → "name" ∉ entryKeys calls' →
      (called name calls).fragment ctx = (called name' calls').fragment ctx →
      called name calls = called name' calls') ∧
    ∀ (name name' : String) (calls : List (String × Literal)), "name" ∈ entryKeys calls →
      (called name calls).fragment ctx = (called name' calls).fragment ctx := by
  have hk (calls : List (String × Literal)) :
      "name" ∈ (Dict.ofList calls).keys ↔ "name" ∈ entryKeys calls := by
    rw [Dict.keys_ofList, List.mem_eraseDups]
  refine ⟨fun name calls => ?_, fun name name' calls calls' hn hn' hf => ?_,
    fun name name' calls hn => ?_⟩
  · rw [← keeps_reference_iff, fragment_called h]
    constructor
    · rintro ⟨v, hv, hkeep⟩
      cases hv
      exact hkeep
    · exact fun hkeep => ⟨_, rfl, hkeep⟩
  · rw [fragment_called h, fragment_called h] at hf
    have hr : reference name (.ofList calls) = reference name' (.ofList calls') :=
      (Prod.mk.inj (List.cons.inj (Except.ok.inj hf)).1).2
    rw [← hk] at hn hn'
    obtain ⟨rfl, ha⟩ := reference_injective hn hn' hr
    rw [called_eq, called_eq, ha]
  · rw [fragment_called h, fragment_called h, reference_of_mem ((hk calls).mpr hn) name name']

/-- An argument called `name` is what the reference names: another executor than the one it was
given to, and the two are written alike. -/
theorem not_keeps_name :
    let calls := [("name", Literal.str "other")]
    let v := Value.ofEntries [("name", .str "other")]
    (called "node" calls).fragment .templated = .ok [("executor", v)] ∧
      ¬ Keeps "node" calls v ∧
      called "node" calls ≠ called "other" calls ∧
      (called "node" calls).fragment .templated = (called "other" calls).fragment .templated := by
  intro calls v
  refine ⟨by decide, fun hk => ?_, by decide, by decide⟩
  obtain ⟨-, hn, -⟩ := (keeps_ofEntries_iff (List.cons_ne_nil _ _)).mp hk
  revert hn
  decide

/-- An argument given twice, and the same arguments in another order. -/
theorem reference_keeps_iff_node :
    let calls := [("tag", Literal.str "20.5"), ("parallel", .bool true), ("tag", .str "22")]
    let other := [("parallel", Literal.bool true), ("tag", .str "22")]
    let v := Value.ofEntries [("name", .str "node"), ("tag", .str "22"), ("parallel", .bool true)]
    (Context.templated.flatten = false ∧ "name" ∉ entryKeys calls ∧ "name" ∉ entryKeys other ∧
      "name" ∈ entryKeys (("name", Literal.str "") :: calls)) ∧
    (called "node" calls).fragment .templated = .ok [("executor", v)] ∧ Keeps "node" calls v ∧
    (called "node" calls).fragment .templated ≠ (called "node" other).fragment .templated ∧
    (called "node" (("name", .str "") :: calls)).fragment .templated =
      (called "" (("name", .str "") :: calls)).fragment .templated := by
  intro calls other v
  have hn : "name" ∉ entryKeys calls := by decide
  have hn' : "name" ∉ entryKeys other := by decide
  have hm : "name" ∈ entryKeys (("name", Literal.str "") :: calls) := by decide
  have ht : Context.templated.flatten = false := rfl
  obtain ⟨hkeeps, htell, hsame⟩ := reference_keeps_iff ht
  have hf : (called "node" calls).fragment .templated = .ok [("executor", v)] := by decide
  refine ⟨⟨ht, hn, hn', hm⟩, hf, ?_, fun he => ?_, hsame _ _ _ hm⟩
  · obtain ⟨w, hw, hk⟩ := (hkeeps "node" calls).mpr (.inl hn)
    cases hf.symm.trans hw
    exact hk
  · have := htell _ _ _ _ hn hn' he
    revert this
    decide

end Executor

end JobConfig

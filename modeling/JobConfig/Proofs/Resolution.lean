import JobConfig.Job
import JobConfig.Proofs.Entries
import JobConfig.Proofs.Outcome

/-!
# Resolving what is written

Components are generated by resolving their written form, in the executor, in each step and in each
setting on its own. The laws of this module put these parts together: resolving goes through
sequences and mappings one by one (`Value.resolveItems_eq_ok`, `Value.resolveEntries_eq_ok`) and
through the concatenation of entries (`Context.resolveEntries_append`), and without a scope to
resolve against it changes nothing (`Context.resolveValue_eq_ok`). With them a job is generated by
resolving what it writes, all at once and from left to right (`Job.entries_of_held`).
-/

namespace JobConfig

/-! ## Values -/

namespace Value

variable {ε : Type} {lookup : String → Except ε Literal}

theorem resolveItems_eq_mapM (vs : List Value) :
    resolveItems lookup vs = vs.mapM (resolve lookup) := by
  induction vs with
  | nil => rfl
  | cons v vs ih => rw [resolveItems, List.mapM_cons, ih]

/-- The items of a sequence are resolved one by one. -/
theorem resolveItems_eq_ok {vs ws : List Value} :
    resolveItems lookup vs = .ok ws ↔
      List.Forall₂ (fun v w => v.resolve lookup = .ok w) vs ws := by
  rw [resolveItems_eq_mapM, mapM_eq_ok_iff]

/-- The entries of a mapping are resolved one by one, and keep their keys. -/
theorem resolveEntries_eq_ok {es fs : List (Value × Value)} :
    resolveEntries lookup es = .ok fs ↔
      List.Forall₂ (fun e f => f.1 = e.1 ∧ e.2.resolve lookup = .ok f.2) es fs := by
  induction es generalizing fs with
  | nil =>
    rw [resolveEntries, List.forall₂_nil_left_iff]
    exact ⟨fun h => (Except.ok.inj h).symm, fun h => h ▸ rfl⟩
  | cons e es ih =>
    obtain ⟨k, v⟩ := e
    simp only [resolveEntries, bind_eq_ok, ih, pure_eq_ok_iff, List.forall₂_cons_left_iff]
    constructor
    · rintro ⟨w, hw, fs, hfs, rfl⟩
      exact ⟨(k, w), fs, ⟨rfl, hw⟩, hfs, rfl⟩
    · rintro ⟨⟨_, w⟩, fs, ⟨rfl, hw⟩, hfs, rfl⟩
      exact ⟨w, hw, fs, hfs, rfl⟩

/-- The entry `f` is the entry `e` with its value resolved. -/
def ResolvedTo (lookup : String → Except ε Literal) (e f : String × Value) : Prop :=
  f.1 = e.1 ∧ e.2.resolve lookup = .ok f.2

/-- A mapping is resolved to the mapping of its resolved entries. -/
theorem resolve_ofEntries {es : List (String × Value)} {w : Value}
    (h : (ofEntries es).resolve lookup = .ok w) :
    ∃ fs, w = ofEntries fs ∧ List.Forall₂ (ResolvedTo lookup) es fs := by
  obtain ⟨ws, hws, hw⟩ := bind_eq_ok.mp h
  cases hw
  clear h
  induction es generalizing ws with
  | nil =>
    cases hws
    exact ⟨[], rfl, .nil⟩
  | cons e es ih =>
    simp only [List.map_cons, resolveEntries, bind_eq_ok, pure_eq_ok_iff] at hws
    obtain ⟨w, hw, rest, hrest, rfl⟩ := hws
    obtain ⟨fs, hfs, hr⟩ := ih rest hrest
    refine ⟨(e.1, w) :: fs, ?_, .cons ⟨rfl, hw⟩ hr⟩
    cases hfs
    rfl

theorem entryKeys_eq_of_resolved {es fs : List (String × Value)}
    (h : List.Forall₂ (ResolvedTo lookup) es fs) : entryKeys fs = entryKeys es :=
  entryKeys_eq_of_forall₂ (R := fun v w : Value => v.resolve lookup = .ok w) h

/-- Where the entries are resolved, a name has what its entry is resolved to. -/
theorem valueAt?_of_resolved {es fs : List (String × Value)}
    (h : List.Forall₂ (ResolvedTo lookup) es fs) (name : String) :
    Option.Rel (fun v w => v.resolve lookup = .ok w) (valueAt? name es) (valueAt? name fs) :=
  valueAt?_of_forall₂ h name

end Value

/-! ## Contexts -/

namespace Context

theorem activeScope_eq_none {ctx : Context} (h : ctx.flatten = false) : ctx.activeScope = none := by
  simp [activeScope, h]

theorem activeScope_withScope {ctx : Context} (h : ctx.flatten = true) (ps : Parameters) :
    (ctx.withScope ps).activeScope = some ps := by
  simp [activeScope, withScope, h]

theorem resolveValue_eq_ok {ctx : Context} (h : ctx.activeScope = none) (v : Value) :
    ctx.resolveValue v = .ok v := by
  simp only [resolveValue, h]

theorem resolveValue_eq_resolve {ctx : Context} {ps : Parameters} (h : ctx.activeScope = some ps)
    (v : Value) : ctx.resolveValue v = v.resolve (ctx.lookup ps) := by
  simp only [resolveValue, h]

theorem resolve_of_resolveValue {ctx : Context} {v w : Value} (h : ctx.resolveValue v = .ok w) :
    w = v ∨ ∃ ps, v.resolve (ctx.lookup ps) = .ok w := by
  cases hs : ctx.activeScope with
  | none => exact .inl (Except.ok.inj ((resolveValue_eq_ok hs v).symm.trans h)).symm
  | some ps => exact .inr ⟨ps, (resolveValue_eq_resolve hs v).symm.trans h⟩

theorem resolveEntries_eq_ok {ctx : Context} (h : ctx.activeScope = none)
    (es : List (String × Value)) : ctx.resolveEntries es = .ok es := by
  induction es with
  | nil => rfl
  | cons e es ih =>
    obtain ⟨name, v⟩ := e
    simp [resolveEntries, resolveValue_eq_ok h, ih]

/-- Entries are resolved one by one, and keep their names. -/
theorem resolveEntries_eq_ok_iff {ctx : Context} {es fs : List (String × Value)} :
    ctx.resolveEntries es = .ok fs ↔
      List.Forall₂ (fun e f => f.1 = e.1 ∧ ctx.resolveValue e.2 = .ok f.2) es fs := by
  induction es generalizing fs with
  | nil =>
    rw [resolveEntries, List.forall₂_nil_left_iff]
    exact ⟨fun h => (Except.ok.inj h).symm, fun h => h ▸ rfl⟩
  | cons e es ih =>
    obtain ⟨name, v⟩ := e
    simp only [resolveEntries, bind_eq_ok, ih, pure_eq_ok_iff, List.forall₂_cons_left_iff]
    constructor
    · rintro ⟨w, hw, fs, hfs, rfl⟩
      exact ⟨(name, w), fs, ⟨rfl, hw⟩, hfs, rfl⟩
    · rintro ⟨⟨_, w⟩, fs, ⟨rfl, hw⟩, hfs, rfl⟩
      exact ⟨w, hw, fs, hfs, rfl⟩

theorem entryKeys_of_resolved {ctx : Context} {es fs : List (String × Value)}
    (h : ctx.resolveEntries es = .ok fs) : entryKeys fs = entryKeys es :=
  entryKeys_eq_of_forall₂ (R := fun v w => ctx.resolveValue v = .ok w) (resolveEntries_eq_ok_iff.mp h)

/-- What is resolved has under a name what the name's value is resolved to. -/
theorem valueAt?_of_resolved {ctx : Context} {es fs : List (String × Value)}
    (h : ctx.resolveEntries es = .ok fs) (name : String) :
    Option.Rel (fun v w => ctx.resolveValue v = .ok w) (valueAt? name es) (valueAt? name fs) :=
  valueAt?_of_forall₂ (resolveEntries_eq_ok_iff.mp h) name

theorem resolveEntries_append (ctx : Context) (es fs : List (String × Value)) :
    ctx.resolveEntries (es ++ fs) = do
      let es ← ctx.resolveEntries es
      let fs ← ctx.resolveEntries fs
      return es ++ fs := by
  induction es with
  | nil => simp [resolveEntries]
  | cons e es ih =>
    obtain ⟨name, v⟩ := e
    simp [resolveEntries, ih]

theorem resolve_namedEntries {ctx : Context} {ps : Parameters} (h : ctx.activeScope = some ps)
    (es : List (String × Value)) :
    Value.resolveEntries (ctx.lookup ps) (es.map fun e => (.str e.1, e.2)) =
      (List.map fun e => (Value.str e.1, e.2)) <$> ctx.resolveEntries es := by
  induction es with
  | nil => rfl
  | cons e es ih =>
    simp [Value.resolveEntries, resolveEntries, resolveValue_eq_resolve h, ih]

/-- A mapping is resolved entry by entry. -/
theorem resolveValue_ofEntries (ctx : Context) (es : List (String × Value)) :
    ctx.resolveValue (.ofEntries es) = Value.ofEntries <$> ctx.resolveEntries es := by
  cases h : ctx.activeScope with
  | none => rw [resolveValue_eq_ok h, resolveEntries_eq_ok h, Except.map_ok]
  | some ps =>
    rw [resolveValue_eq_resolve h, Value.ofEntries, Value.resolve, resolve_namedEntries h]
    simp only [bind_pure_comp, Functor.map_map]
    rfl

end Context

/-! ## Executors, steps and jobs -/

/-- Without parameters to resolve its references by, an executor is generated as it is written. -/
theorem Executor.fragment_eq_written (e : Executor) {ctx : Context} (h : ctx.flatten = false) :
    e.fragment ctx = .ok e.written :=
  Context.resolveEntries_eq_ok (Context.activeScope_eq_none h) _

namespace Job

theorem stepContents_eq_mapM (ctx : Context) (steps : List Step) :
    stepContents ctx steps = steps.mapM fun s => s.contents ctx := by
  induction steps with
  | nil => rfl
  | cons s steps ih => rw [stepContents, List.mapM_cons, ih]

theorem stepContents_eq_ok {ctx : Context} (h : ctx.activeScope = none) (steps : List Step) :
    stepContents ctx steps = .ok (steps.map Step.written) := by
  induction steps with
  | nil => rfl
  | cons s steps ih => simp [stepContents, Step.contents, Context.resolveValue_eq_ok h, ih]

theorem stepContents_eq_resolve {ctx : Context} {ps : Parameters} (h : ctx.activeScope = some ps)
    (steps : List Step) :
    stepContents ctx steps = Value.resolveItems (ctx.lookup ps) (steps.map Step.written) := by
  induction steps with
  | nil => rfl
  | cons s steps ih =>
    simp [stepContents, Value.resolveItems, Step.contents, Context.resolveValue_eq_resolve h, ih]

/-- The sequence of the steps is resolved step by step. -/
theorem resolveValue_steps (ctx : Context) (steps : List Step) :
    ctx.resolveValue (.seq (steps.map Step.written)) = Value.seq <$> stepContents ctx steps := by
  cases h : ctx.activeScope with
  | none => rw [Context.resolveValue_eq_ok h, stepContents_eq_ok h, Except.map_ok]
  | some ps =>
    rw [Context.resolveValue_eq_resolve h, stepContents_eq_resolve h, Value.resolve]
    simp

/-- The entries of a job as they are written, in the given executor: the executor's, the steps, and
the settings that are set. -/
def written (j : Job) (e : Executor) : List (String × Value) :=
  e.written ++ ("steps", .seq (j.steps.map Step.written)) :: j.properties.written

theorem entries_of_dropped {j : Job} {held : Held} (h : held j.executor = none) (ctx : Context) :
    j.entries held ctx = .error (.undefinedExecutor j.name) := by
  simp only [entries, h]

/-- A job whose executor is held is generated by resolving what it writes. -/
theorem entries_of_held {j : Job} {held : Held} {e : Executor} (h : held j.executor = some e)
    (ctx : Context) : j.entries held ctx = ctx.resolveEntries (j.written e) := by
  simp only [entries, h, written, Executor.fragment, Context.resolveEntries_append,
    Context.resolveEntries, resolveValue_steps]
  simp

end Job

namespace AnyJob

/-- What a job writes of its parameters, if it accepts any. -/
def declared (j : AnyJob) : List (String × Value) :=
  (j.parameters?.map fun ps => ("parameters", ps.contents)).toList

/-- A job as it is written, in the given executor: its entries, then its parameters. -/
def written (j : AnyJob) (e : Executor) : List (String × Value) :=
  j.job.written e ++ j.declared

theorem contents_templated (j : AnyJob) (held : Held) {ctx : Context} (h : ctx.flatten = false) :
    j.contents held ctx =
      (fun es => Value.ofEntries (es ++ j.declared)) <$> j.job.entries held ctx := by
  cases j with
  | plain j =>
    simp [contents, Job.contents, job, declared, parameters?]
  | parameterized j =>
    simp [contents, ParameterizedJob.contents, ParameterizedJob.entries, h, job, declared,
      parameters?]

theorem contents_eq_written {j : AnyJob} {held : Held} {ctx : Context} {e : Executor}
    (h : ctx.flatten = false) (he : held j.job.executor = some e) :
    j.contents held ctx = .ok (.ofEntries (j.written e)) := by
  rw [contents_templated j held h, Job.entries_of_held he,
    Context.resolveEntries_eq_ok (Context.activeScope_eq_none h)]
  rfl

end AnyJob

end JobConfig

import JobConfig.Proofs.Dependence

/-!
# Values are checked before they are used

The parameters of a job come about by calls: some construct a parameter (`Construction`), some hand
one to the job (`ParameterCall`), and a call that fails leaves the job as it was
(`ParameterizedJob.call`). Whatever the calls were, each parameter of the job is one that they
constructed (`ParameterizedJob.builtBy_after`), so its default is a value that it takes. A value
that is supplied is checked when a reference asks for it. Hence what a reference stands for is
always a value that its parameter takes, and a supplied value that it does not take is an error and
not replaced by the default (`ParameterizedJob.values_checked`).
-/

namespace JobConfig

/-! ## Constructing parameters -/

/-- A call that constructs a parameter. -/
inductive Construction where
  | declared (name : String) (d : Declaration)
  | string (name : String) (default description : Option String)
  | boolean (name : String) (default : Option Bool) (description : Option String)
  | integer (name : String) (default : Option Int64) (description : Option String)
  | environment (name : String) (default description : Option String)
  | enumeration (name : String) (allowed : List String) (default description : Option String)

/-- The parameter that is constructed, or the rule that is broken. -/
def Construction.build : Construction → Except BuildError Parameter
  | declared name d => Parameter.declare name d
  | string name default description => Parameter.string name default description
  | boolean name default description => Parameter.boolean name default description
  | integer name default description => Parameter.integer name default description
  | environment name default description => Parameter.environment name default description
  | enumeration name allowed default description =>
    Parameter.enumeration name allowed default description

namespace Parameters

/-- Each parameter of the list is one that the constructions give. -/
def BuiltBy (cs : List Construction) (ps : Parameters) : Prop :=
  ∀ p ∈ ps.items, ∃ c ∈ cs, c.build = .ok p

variable {cs : List Construction} {c : Construction} {ps ps' : Parameters} {p : Parameter}

theorem BuiltBy.empty (cs : List Construction) : BuiltBy cs ∅ := nofun

theorem BuiltBy.mono {cs' : List Construction} (h : ps.BuiltBy cs) (hc : ∀ c ∈ cs, c ∈ cs') :
    ps.BuiltBy cs' := by
  intro p hp
  obtain ⟨c, hm, hb⟩ := h p hp
  exact ⟨c, hc c hm, hb⟩

theorem items_foldlM_add {qs : List Parameter} (h : qs.foldlM Parameters.add ps = .ok ps') :
    ps'.items = ps.items ++ qs := by
  induction qs generalizing ps with
  | nil =>
    cases h
    rw [List.append_nil]
  | cons q qs ih =>
    rw [List.foldlM_cons, bind_eq_ok] at h
    obtain ⟨mid, ha, h⟩ := h
    rw [ih h, items_add ha, List.append_assoc, List.singleton_append]

theorem items_ofList {qs : List Parameter} (h : ofList qs = .ok ps) : ps.items = qs :=
  items_foldlM_add h

/-- A list to which a parameter is added keeps to the constructions. -/
theorem BuiltBy.add (h : ps.BuiltBy cs) (hc : c ∈ cs) (hp : c.build = .ok p)
    (ha : ps.add p = .ok ps') : ps'.BuiltBy cs := by
  intro q hq
  rw [items_add ha, List.mem_append, List.mem_singleton] at hq
  rcases hq with hq | rfl
  · exact h q hq
  · exact ⟨c, hc, hp⟩

/-- So does a list that is put together of what they give. -/
theorem BuiltBy.ofList {qs : List Parameter} (hm : cs.mapM Construction.build = .ok qs)
    (h : ofList qs = .ok ps) : ps.BuiltBy cs := by
  intro q hq
  rw [items_ofList h] at hq
  obtain ⟨c, hc, hb⟩ := exists_of_mem_mapM hm hq
  exact ⟨c, hc, hb⟩

end Parameters

/-! ## Calls on a job -/

/-- A call that changes the parameters of a job. -/
inductive ParameterCall where
  /-- A new list, of newly constructed parameters. -/
  | attach (cs : List Construction)
  | add (c : Construction)
  | define (name : String) (d : Declaration)

namespace ParameterCall

/-- What a call constructs. -/
def constructions : ParameterCall → List Construction
  | attach cs => cs
  | add c => [c]
  | define name d => [.declared name d]

/-- The job that a call makes of a job. -/
def apply (j : ParameterizedJob) : ParameterCall → Except BuildError ParameterizedJob
  | attach cs => do
    let ps ← cs.mapM Construction.build
    let parameters ← Parameters.ofList ps
    return { j with parameters }
  | add c => do
    let p ← c.build
    j.addParameter p
  | define name d => j.defineParameter name d

end ParameterCall

namespace ParameterizedJob

/-- The job after a call; one that fails changes nothing. -/
def call (j : ParameterizedJob) (c : ParameterCall) : ParameterizedJob :=
  match c.apply j with
  | .ok j' => j'
  | .error _ => j

/-- The job after calls, one after the other. -/
def after (j : ParameterizedJob) (calls : List ParameterCall) : ParameterizedJob :=
  calls.foldl call j

variable {j j' : ParameterizedJob} {cs : List Construction}

theorem addParameter_eq_ok_iff {p : Parameter} :
    j.addParameter p = .ok j' ↔
      ∃ ps, j.parameters.add p = .ok ps ∧ { j with parameters := ps } = j' := by
  simp [addParameter, map_eq_ok]

/-- What a call leaves is the job itself, with parameters of which each was there or was constructed
by the call. -/
theorem builtBy_apply {c : ParameterCall} (h : j.parameters.BuiltBy cs)
    (hc : ∀ b ∈ c.constructions, b ∈ cs) (ha : c.apply j = .ok j') :
    j'.job = j.job ∧ j'.parameters.BuiltBy cs := by
  cases c with
  | attach bs =>
    simp only [ParameterCall.apply, bind_eq_ok, pure_eq_ok_iff] at ha
    obtain ⟨ps, hm, parameters, ho, rfl⟩ := ha
    exact ⟨rfl, (Parameters.BuiltBy.ofList hm ho).mono hc⟩
  | add b =>
    simp only [ParameterCall.apply, bind_eq_ok, addParameter_eq_ok_iff] at ha
    obtain ⟨p, hb, ps, hps, rfl⟩ := ha
    exact ⟨rfl, h.add (hc b (List.mem_singleton_self b)) hb hps⟩
  | define name d =>
    simp only [ParameterCall.apply, defineParameter, bind_eq_ok, addParameter_eq_ok_iff] at ha
    obtain ⟨p, hb, ps, hps, rfl⟩ := ha
    exact ⟨rfl, h.add (c := .declared name d) (hc _ (List.mem_singleton_self _)) hb hps⟩

theorem builtBy_call {c : ParameterCall} (h : j.parameters.BuiltBy cs)
    (hc : ∀ b ∈ c.constructions, b ∈ cs) :
    (j.call c).job = j.job ∧ (j.call c).parameters.BuiltBy cs := by
  unfold call
  split
  · rename_i j' ha
    exact builtBy_apply h hc ha
  · exact ⟨rfl, h⟩

/-- Whatever the calls were, the parameters of a job are ones that they constructed. -/
theorem builtBy_after {calls : List ParameterCall} (h : j.parameters.BuiltBy cs)
    (hc : ∀ c ∈ calls, ∀ b ∈ c.constructions, b ∈ cs) :
    (j.after calls).job = j.job ∧ (j.after calls).parameters.BuiltBy cs := by
  induction calls generalizing j with
  | nil => exact ⟨rfl, h⟩
  | cons c calls ih =>
    rw [List.forall_mem_cons] at hc
    obtain ⟨hj, hb⟩ := builtBy_call h hc.1
    obtain ⟨hj', hb'⟩ := ih hb hc.2
    exact ⟨hj'.trans hj, hb'⟩

/-- Whatever calls a job's parameters come from, a value that is filled in for a reference is one
that the parameter of its name takes: the supplied one or, if there is none, the default. A supplied
value that the parameter does not take fails the reference, and with it the job, with the
parameter's own reason. -/
theorem values_checked (job : Job) (calls : List ParameterCall) {ctx : Context}
    (h : ctx.flatten = true) :
    let j := after ⟨job, ∅⟩ calls
    (∀ p ∈ j.parameters.items, ∃ call ∈ calls, ∃ c ∈ call.constructions, c.build = .ok p) ∧
    (∀ name value, ctx.lookup j.parameters name = .ok value →
      ∃ p, j.parameters.get? name = some p ∧ p.reject? value = none ∧
        p.type.accepts value = true ∧
        (p.type = .enum → ∃ text ∈ p.declaration.allowed.getD [], value = .str text) ∧
        (ctx.overrides.get? name = some value ∨
          ctx.overrides.get? name = none ∧ p.declaration.default = some value)) ∧
    (∀ held v, j.contents held ctx = .ok v →
      ∀ name ∈ job.references held, ∃ value, ctx.lookup j.parameters name = .ok value) ∧
    (∀ name p value cause, j.parameters.get? name = some p →
      ctx.overrides.get? name = some value → p.reject? value = some cause →
      ctx.lookup j.parameters name = .error (.invalidOverride name cause) ∧
      ∀ held before rest, job.references held = before ++ name :: rest →
        (∀ n ∈ before, ∃ value, ctx.lookup j.parameters n = .ok value) →
        j.contents held ctx = .error (.invalidOverride name cause)) := by
  intro j
  -- The invariant is about constructions that do not change along the run: those of all calls.
  have hc : ∀ c ∈ calls, ∀ b ∈ c.constructions, b ∈ calls.flatMap (·.constructions) :=
    fun c hm b hb => List.mem_flatMap.mpr ⟨c, hm, hb⟩
  obtain ⟨hj, hb⟩ : j.job = job ∧ j.parameters.BuiltBy (calls.flatMap (·.constructions)) :=
    builtBy_after (.empty _) hc
  refine ⟨?_, ?_, ?_, ?_⟩
  · intro p hp
    obtain ⟨c, hm, hp⟩ := hb p hp
    obtain ⟨call, hm, hc⟩ := List.mem_flatMap.mp hm
    exact ⟨call, hm, c, hc, hp⟩
  · intro name value hl
    obtain ⟨p, hp, hr, hv⟩ := Context.lookup_eq_ok_iff.mp hl
    obtain ⟨hs, hm⟩ := Parameter.reject?_eq_none_iff.mp hr
    exact ⟨p, hp, hr, hs, hm, hv⟩
  · intro held v hv name hn
    exact exists_lookup_of_contents h hv (hj ▸ hn)
  · intro name p value cause hp hv hr
    have hl := Context.lookup_of_rejected hp hv hr
    exact ⟨hl, fun held before rest hs hb => contents_eq_error h (hj ▸ hs) hb hl⟩

/-- A second declaration of `tag` is refused. The job uses the default of `tag`, and it fails for a
target that is not allowed, although `target` has a default. -/
theorem values_checked_deploy :
    let job : Job := {
      name := "deploy"
      executor := ⟨0⟩
      steps := [.run { command := "make << parameters.target >>" }]
      properties := { shell := some "<< parameters.tag >>" }
      named := by decide }
    let target : Declaration := ⟨.enum, some (.str "all"), none, some ["all", "docs"]⟩
    let calls : List ParameterCall := [
      .attach [.string "tag" (some "20.1") none],
      .define "target" target,
      .add (.integer "tag" (some 3) none)]
    let j := after ⟨job, ∅⟩ calls
    let held := Held.ofList [⟨⟨0⟩, .reusable "node" ∅⟩]
    let ctx := Context.flattened.withOverride "target" (.str "none")
    let cause : BuildError := .invalidEnumDefault "target" "none" ["all", "docs"]
    ctx.flatten = true ∧ j.parameters.names = ["tag", "target"] ∧
      (∃ p, j.parameters.get? "tag" = some p ∧ p.reject? (.str "20.1") = none) ∧
      ctx.lookup j.parameters "target" = .error (.invalidOverride "target" cause) ∧
      j.contents held ctx = .error (.invalidOverride "target" cause) := by
  intro job target calls j held ctx cause
  have hf : ctx.flatten = true := rfl
  have hl : ctx.lookup j.parameters "tag" = .ok (.str "20.1") := by decide
  have hp : j.parameters.get? "target" = some ⟨"target", target, by decide⟩ := by decide
  have hr : job.references held = [] ++ "target" :: ["tag"] := by decide +kernel
  obtain ⟨-, hv, -, he⟩ := values_checked job calls hf
  obtain ⟨p, hg, hn, -⟩ := hv "tag" (.str "20.1") hl
  obtain ⟨ht, hc⟩ := he "target" _ (.str "none") cause hp rfl (by decide)
  exact ⟨hf, by decide, ⟨p, hg, hn⟩, ht, hc held [] ["tag"] hr nofun⟩

end ParameterizedJob

end JobConfig

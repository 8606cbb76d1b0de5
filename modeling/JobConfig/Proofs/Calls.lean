import JobConfig.Proofs.Checked
import JobConfig.Session

/-!
# Jobs after calls

A new job is filled by calls (`JobCall`): they add a step, change a setting or declare a parameter,
in any order, and one that fails changes nothing. What a job is after calls can be read off them: it
has the steps that were added, in order, and the settings that were made last
(`AnyJob.job_after`), and it takes the parameters that were declared with success
(`AnyJob.items_after`), which are the first ones that were offered under their names
(`AnyJob.names_after`). The operations of a session change its jobs by these calls
(`Session.step_of_call`).
-/

namespace JobConfig

/-! ## Calls -/

/-- The parameter that is added, or the rule that it breaks. -/
def Session.ParameterSource.build : ParameterSource → Except BuildError Parameter
  | declared name d => Parameter.declare name d
  | built p => p

theorem Session.withParameter_eq (b : ParameterizedJob) (p : ParameterSource) :
    withParameter b p = p.build >>= b.addParameter := by
  cases p <;> rfl

theorem Parameters.add_of_mem {ps : Parameters} {p : Parameter} (h : p.name ∈ ps.names) :
    ps.add p = .error (.duplicateName p.name) :=
  dif_pos h

theorem Parameters.exists_add {ps : Parameters} {p : Parameter} (h : p.name ∉ ps.names) :
    ∃ ps', ps.add p = .ok ps' :=
  ⟨_, dif_neg h⟩

theorem Job.withProperties_eq_ok_iff {name : String} {executor : Handle} {steps : List Step}
    {properties : JobProperties} {j : Job} :
    withProperties name executor steps properties = .ok j ↔
      j.name = name ∧ j.executor = executor ∧ j.steps = steps ∧ j.properties = properties := by
  constructor
  · intro h
    unfold withProperties at h
    split at h
    · cases h
      exact ⟨rfl, rfl, rfl, rfl⟩
    · cases h
  · rintro ⟨rfl, rfl, rfl, rfl⟩
    exact dif_pos j.named

/-- A call that changes a job. -/
inductive JobCall where
  | addStep (s : Step)
  | change (c : Session.JobChange)
  | addParameter (p : Session.ParameterSource)

namespace JobCall

/-- The step that a call adds. -/
def step? : JobCall → Option Step
  | addStep s => some s
  | _ => none

/-- The variable that a call sets, and its value. -/
def assignment? : JobCall → Option (String × String)
  | change (.variable name value) => some (name, value)
  | _ => none

def parallelism? : JobCall → Option Parallelism
  | change (.parallelism p) => some p
  | _ => none

def shell? : JobCall → Option String
  | change (.shell shell) => some shell
  | _ => none

def workingDirectory? : JobCall → Option String
  | change (.workingDirectory path) => some path
  | _ => none

/-- The parameter that a call offers, unless it breaks a rule. -/
def parameter? : JobCall → Option Parameter
  | addParameter p => p.build.toOption
  | _ => none

/-- The settings that calls leave a new job with: the last of each kind, and of each variable. -/
def properties (calls : List JobCall) : JobProperties where
  parallelism := (calls.filterMap parallelism?).getLast?
  environment := .ofList (calls.filterMap assignment?)
  shell := (calls.filterMap shell?).getLast?
  workingDirectory := (calls.filterMap workingDirectory?).getLast?

/-- The names of the parameters that calls offer, each where it is offered first. -/
def offered (calls : List JobCall) : List String :=
  (parameterNames (calls.filterMap parameter?)).eraseDups

/-- What a call does to the job itself, whether it takes parameters or not. -/
def onJob : JobCall → Job → Job
  | addStep s, b => b.addStep s
  | change c, b => c.apply b
  | addParameter _, b => b

variable (calls : List JobCall) (c : JobCall)

theorem filterMap_append_singleton {α : Type} (f : JobCall → Option α) :
    (calls ++ [c]).filterMap f = calls.filterMap f ++ (f c).toList := by
  rw [List.filterMap_append]
  cases h : f c <;> simp [h]

/-- One more call makes the settings that it makes and leaves the others. -/
theorem properties_append_singleton : properties (calls ++ [c]) = {
    parallelism := c.parallelism?.or (properties calls).parallelism
    environment := c.assignment?.elim (properties calls).environment
      fun a => (properties calls).environment.insert a.1 a.2
    shell := c.shell?.or (properties calls).shell
    workingDirectory := c.workingDirectory?.or (properties calls).workingDirectory } := by
  have hl {α : Type} (as : List α) (o : Option α) :
      (as ++ o.toList).getLast? = o.or as.getLast? := by
    cases o <;> simp
  have he (es : List (String × String)) (o : Option (String × String)) :
      Dict.ofList (es ++ o.toList) =
        o.elim (Dict.ofList es) fun a => (Dict.ofList es).insert a.1 a.2 := by
    cases o <;> simp [Dict.ofList_append_singleton]
  simp only [properties, filterMap_append_singleton, hl, he]

/-- One more parameter that is offered is listed exactly if its name is new. -/
theorem offered_append_singleton : offered (calls ++ [c]) =
    c.parameter?.elim (offered calls) fun q =>
      if q.name ∈ offered calls then offered calls else offered calls ++ [q.name] := by
  have hp : parameterNames ((calls ++ [c]).filterMap parameter?) =
      parameterNames (calls.filterMap parameter?) ++ c.parameter?.toList.map Parameter.name := by
    rw [filterMap_append_singleton, parameterNames, List.map_append]
    rfl
  rw [offered, hp]
  cases c.parameter? with
  | none => rw [Option.toList_none, List.map_nil, List.append_nil, Option.elim_none, offered]
  | some q =>
    simp only [Option.toList_some, List.map_cons, List.map_nil, Option.elim_some, offered,
      eraseDups_append_singleton, List.mem_eraseDups]

end JobCall

namespace AnyJob

/-- A job without steps and settings, and without parameters if it takes any. -/
def new (takesParameters : Bool) (name : String) (executor : Handle) : Except BuildError AnyJob :=
  if takesParameters then .parameterized <$> ParameterizedJob.new name executor
  else .plain <$> Job.new name executor

/-- The job that a call makes of a job. -/
def apply (j : AnyJob) : JobCall → Session.Outcome AnyJob
  | .addStep s => .ok (j.modify fun b => b.addStep s)
  | .change c => .ok (j.modify c.apply)
  | .addParameter p =>
    match j with
    | .plain _ => .error .notParameterized
    | .parameterized b => .parameterized <$> (Session.withParameter b p).mapError .build

/-- The job after a call; one that fails changes nothing. -/
def call (j : AnyJob) (c : JobCall) : AnyJob :=
  match j.apply c with
  | .ok j' => j'
  | .error _ => j

/-- The job after calls, one after the other. -/
def after (j : AnyJob) (calls : List JobCall) : AnyJob :=
  calls.foldl call j

/-- The parameters that calls on a job declare with success, in order. -/
def accepted (j : AnyJob) : List JobCall → List Parameter
  | [] => []
  | c :: calls =>
    match j.apply c with
    | .ok j' => c.parameter?.toList ++ accepted j' calls
    | .error _ => accepted j calls

variable {j j' : AnyJob} {c : JobCall}

theorem of_new {takesParameters : Bool} {name : String} {executor : Handle}
    (h : new takesParameters name executor = .ok j) :
    j.name = name ∧ j.job.executor = executor ∧ j.job.steps = [] ∧ j.job.properties = {} ∧
      j.parameters? = if takesParameters then some ∅ else none := by
  cases takesParameters with
  | true =>
    simp only [new, ParameterizedJob.new, if_true, map_eq_ok, bind_eq_ok, pure_eq_ok_iff] at h
    obtain ⟨_, ⟨b, hb, rfl⟩, rfl⟩ := h
    obtain ⟨hn, he, hs, hp⟩ := Job.withProperties_eq_ok_iff.mp hb
    exact ⟨hn, he, hs, hp, rfl⟩
  | false =>
    simp only [new, Bool.false_eq_true, if_false, map_eq_ok] at h
    obtain ⟨b, hb, rfl⟩ := h
    obtain ⟨hn, he, hs, hp⟩ := Job.withProperties_eq_ok_iff.mp hb
    exact ⟨hn, he, hs, hp, rfl⟩

/-! ## A call -/

@[simp] theorem job_modify (j : AnyJob) (f : Job → Job) : (j.modify f).job = f j.job := by
  cases j <;> rfl

@[simp] theorem parameters?_modify (j : AnyJob) (f : Job → Job) :
    (j.modify f).parameters? = j.parameters? := by
  cases j <;> rfl

theorem call_of_ok (h : j.apply c = .ok j') : j.call c = j' := by
  rw [call, h]

theorem call_of_error {e : Session.Failure} (h : j.apply c = .error e) : j.call c = j := by
  rw [call, h]

theorem after_append_singleton (j : AnyJob) (calls : List JobCall) (c : JobCall) :
    j.after (calls ++ [c]) = (j.after calls).call c := by
  rw [after, List.foldl_append]
  rfl

/-- A parameter is declared with success on a job that takes parameters, if it breaks no rule and
its name is new, and then it is the last of them. -/
theorem apply_addParameter_eq_ok_iff {p : Session.ParameterSource} :
    j.apply (.addParameter p) = .ok j' ↔
      ∃ b q ps, j = .parameterized b ∧ p.build = .ok q ∧ b.parameters.add q = .ok ps ∧
        j' = .parameterized { b with parameters := ps } := by
  cases j with
  | plain b => simp [apply]
  | parameterized b =>
    simp only [apply, Session.withParameter_eq, map_eq_ok, mapError_eq_ok, bind_eq_ok,
      ParameterizedJob.addParameter_eq_ok_iff, parameterized.injEq]
    constructor
    · rintro ⟨_, ⟨q, hq, ps, hps, rfl⟩, rfl⟩
      exact ⟨b, q, ps, rfl, hq, hps, rfl⟩
    · rintro ⟨_, q, ps, rfl, hq, hps, rfl⟩
      exact ⟨_, ⟨q, hq, ps, hps, rfl⟩, rfl⟩

/-! ## The job itself -/

theorem job_call (j : AnyJob) (c : JobCall) : (j.call c).job = c.onJob j.job := by
  cases c with
  | addStep s => exact job_modify j _
  | change c => exact job_modify j _
  | addParameter p =>
    cases h : j.apply (.addParameter p) with
    | error e =>
      rw [call_of_error h]
      rfl
    | ok j' =>
      obtain ⟨b, q, ps, rfl, -, -, rfl⟩ := apply_addParameter_eq_ok_iff.mp h
      rw [call_of_ok h]
      rfl

/-- A new job has the steps and the settings that calls give it. -/
theorem job_after {j : AnyJob} (hs : j.job.steps = []) (hp : j.job.properties = {})
    (calls : List JobCall) :
    (j.after calls).job = { j.job with
      steps := calls.filterMap JobCall.step?
      properties := JobCall.properties calls } := by
  induction calls using List.reverseRecOn with
  | nil =>
    have hn : JobCall.properties [] = {} := rfl
    rw [hn, ← hp, List.filterMap_nil, ← hs]
    rfl
  | append_singleton calls c ih =>
    rw [after_append_singleton, job_call, ih, JobCall.properties_append_singleton,
      JobCall.filterMap_append_singleton]
    cases c with
    | addStep s => rfl
    | change c => cases c <;> simp [JobCall.step?] <;> rfl
    | addParameter p => simp [JobCall.step?]; rfl

/-! ## Parameters -/

/-- A call that succeeds puts the parameter that it offers, if any, behind those that are there. -/
theorem items_apply (h : j.apply c = .ok j') :
    j'.parameters?.map Parameters.items =
      j.parameters?.map fun ps => ps.items ++ c.parameter?.toList := by
  cases c with
  | addStep s =>
    cases h
    simp [JobCall.parameter?]
  | change c =>
    cases h
    simp [JobCall.parameter?]
  | addParameter p =>
    obtain ⟨b, q, ps, rfl, hq, hps, rfl⟩ := apply_addParameter_eq_ok_iff.mp h
    simp [parameters?, JobCall.parameter?, hq, Parameters.items_add hps, Except.toOption]

/-- The parameters of a job after calls: those that were there, then those declared with success. -/
theorem items_after (j : AnyJob) (calls : List JobCall) :
    (j.after calls).parameters?.map Parameters.items =
      j.parameters?.map fun ps => ps.items ++ j.accepted calls := by
  induction calls generalizing j with
  | nil => simp [after, accepted]
  | cons c calls ih =>
    rw [after, List.foldl_cons, ← after, ih, accepted]
    cases h : j.apply c with
    | error e => rw [call_of_error h]
    | ok j' =>
      have hi := congrArg (Option.map (· ++ j'.accepted calls)) (items_apply h)
      simpa only [call_of_ok h, Option.map_map, Function.comp_def, List.append_assoc] using hi

/-- Of the parameters that are offered, those with a new name are declared. -/
theorem names_call (j : AnyJob) (c : JobCall) :
    (j.call c).parameters?.map Parameters.names =
      j.parameters?.map fun ps => c.parameter?.elim ps.names fun q =>
        if q.name ∈ ps.names then ps.names else ps.names ++ [q.name] := by
  cases c with
  | addStep s => simp [call, apply, JobCall.parameter?]
  | change c => simp [call, apply, JobCall.parameter?]
  | addParameter p =>
    cases j with
    | plain b => rfl
    | parameterized b =>
      cases hq : p.build with
      | error e =>
        have ha : (parameterized b).apply (.addParameter p) = .error (.build e) := by
          simp [apply, Session.withParameter_eq, hq]
        simp [call_of_error ha, JobCall.parameter?, hq, Except.toOption]
      | ok q =>
        by_cases hn : q.name ∈ b.parameters.names
        · have ha : (parameterized b).apply (.addParameter p) =
              .error (.build (.duplicateName q.name)) := by
            simp [apply, Session.withParameter_eq, hq, ParameterizedJob.addParameter,
              Parameters.add_of_mem hn]
          simp [call_of_error ha, parameters?, JobCall.parameter?, hq, Except.toOption, hn]
        · obtain ⟨ps, hps⟩ := Parameters.exists_add hn
          have ha := apply_addParameter_eq_ok_iff.mpr ⟨b, q, ps, rfl, hq, hps, rfl⟩
          have hi : ps.names = b.parameters.names ++ [q.name] := by
            rw [Parameters.names, Parameters.items_add hps, parameterNames, List.map_append]
            rfl
          simp [call_of_ok ha, parameters?, JobCall.parameter?, hq, Except.toOption, hn, hi]

/-- A new job takes the parameters of the names that calls offer, in order. -/
theorem names_after {j : AnyJob} (h : ∀ ps ∈ j.parameters?, ps = ∅) (calls : List JobCall) :
    (j.after calls).parameters?.map Parameters.names =
      j.parameters?.map fun _ => JobCall.offered calls := by
  induction calls using List.reverseRecOn with
  | nil =>
    cases hp : j.parameters? with
    | none => simp [after, hp]
    | some ps => simp [after, hp, h ps hp]; rfl
  | append_singleton calls c ih =>
    rw [after_append_singleton, names_call]
    simpa only [Option.map_map, Function.comp_def, JobCall.offered_append_singleton] using
      congrArg (Option.map fun ns : List String => c.parameter?.elim ns fun q =>
        if q.name ∈ ns then ns else ns ++ [q.name]) ih

end AnyJob

/-! ## Calls in a session -/

namespace Session

/-- The id of the job that an operation calls, and the call; the step of a call is looked up or read
first, which can fail. -/
def call? (s : Session) : Op → Option (String × Outcome JobCall)
  | .addStep id source => some (id, .addStep <$> s.stepOf source)
  | .change id c => some (id, .ok (.change c))
  | .addParameter id p => some (id, .ok (.addParameter p))
  | _ => none

/-- An operation on a job puts what the call makes of the job in its place. -/
theorem step_of_call {s : Session} {op : Op} {id : String} {c : Outcome JobCall}
    (h : s.call? op = some (id, c)) :
    s.step op = do
      let c ← c
      let j ← find s.jobs id
      let j ← j.apply c
      return (s.putJob id j, .done) := by
  cases op with
  | addStep id source =>
    cases h
    cases hs : s.stepOf source <;> cases hj : find s.jobs id <;>
      simp [step, AnyJob.apply, hs, hj]
  | change id c =>
    cases h
    cases hj : find s.jobs id <;> simp [step, AnyJob.apply, hj]
  | addParameter id p =>
    cases h
    cases hj : find s.jobs id with
    | error e => simp [step, hj]
    | ok j =>
      cases j with
      | plain b => simp [step, AnyJob.apply, hj]
      | parameterized b =>
        cases hp : withParameter b p <;> simp [step, AnyJob.apply, hj, hp]
  | _ => cases h

end Session

end JobConfig

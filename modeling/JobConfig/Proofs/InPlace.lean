import JobConfig.Proofs.Calls
import JobConfig.Proofs.Custody
import JobConfig.Proofs.Work

/-!
# Operations that leave no trace

`Session.run` computes a new session and drops it when the operation fails. `Session.perform`
carries an operation out in place instead, change by change, and nothing is undone (`Work`). No
operation fails after its first change, though, so both come to the same (`Session.on_perform`,
`Session.run_performAll`).

So an operation that fails leaves the session as it was, and so does one that only reads
(`Session.run_of_idle`). Without it, a run goes on as with it (`Session.runAll_eraseIdx`).
-/

namespace JobConfig

/-! ## Parameters and jobs in place -/

namespace Parameters

/-- The list with a parameter under its name: in the place of the one that has the name, or at the
end. -/
def insert (ps : Parameters) (p : Parameter) : Parameters :=
  match ps.add p with
  | .ok ps' => ps'
  | .error _ => ps.put p

/-- Puts a parameter into the list, unless its name is taken. -/
def addInPlace (p : Parameter) : Work Parameters BuildError Unit := do
  if (← get).contains p.name then throw (.duplicateName p.name)
  modify (·.insert p)

/-- The list that parameters are put into one after the other, starting with a new one. -/
def ofListInPlace (ps : List Parameter) : Except BuildError Parameters :=
  Work.apart (ps.forM addInPlace) ∅

theorem on_addInPlace (ps : Parameters) (p : Parameter) :
    (addInPlace p).on ps = Work.expected ps ((fun ps' => (ps', ())) <$> ps.add p) := by
  by_cases h : p.name ∈ ps.names
  · simp [addInPlace, Work.on_bind, contains, h, add_of_mem h, Work.expected]
  · obtain ⟨ps', hps⟩ := exists_add h
    simp [addInPlace, Work.on_bind, contains, h, hps, insert, Work.expected]

theorem apart_forM_addInPlace (start : Parameters) (ps : List Parameter) :
    Work.apart (ps.forM addInPlace) start = ps.foldlM add start := by
  induction ps generalizing start with
  | nil => rfl
  | cons p ps ih =>
    rw [List.foldlM_cons, Work.apart, Work.on_forM_cons, Work.on_bind, on_addInPlace]
    cases start.add p with
    | error e => rfl
    | ok start' => exact ih start'

theorem ofListInPlace_eq (ps : List Parameter) : ofListInPlace ps = ofList ps :=
  apart_forM_addInPlace ∅ ps

end Parameters

namespace JobCall

/-- Declares a parameter on a job. -/
def declareInPlace (p : Session.ParameterSource) : Work AnyJob Session.Failure Unit := do
  match ← get with
  | .plain _ => throw .notParameterized
  | .parameterized b =>
    let q ← Work.settled (p.build.mapError .build)
    Work.within b.parameters (fun _ ps => .parameterized { b with parameters := ps })
      (ExceptT.adapt .build (Parameters.addInPlace q))

/-- Makes the call on a job. -/
def inPlace : JobCall → Work AnyJob Session.Failure Unit
  | .addStep s => modify fun j => j.modify fun b => b.addStep s
  | .change c => modify fun j => j.modify c.apply
  | .addParameter p => declareInPlace p

theorem on_inPlace (c : JobCall) (j : AnyJob) :
    c.inPlace.on j = Work.expected j ((fun j' => (j', ())) <$> j.apply c) := by
  cases c with
  | addStep s => rfl
  | change c => rfl
  | addParameter p =>
    cases j with
    | plain b => rfl
    | parameterized b =>
      have ha : (inPlace (.addParameter p)).on (.parameterized b) =
          Work.on (Work.settled (p.build.mapError .build) >>= fun q =>
            Work.within b.parameters (fun _ ps => .parameterized { b with parameters := ps })
              (ExceptT.adapt .build (Parameters.addInPlace q))) (.parameterized b) := rfl
      rw [ha, AnyJob.apply, Session.withParameter_eq]
      cases hq : p.build with
      | error e => rfl
      | ok q =>
        simp only [mapError_ok, Work.on_bind, Work.on_settled, Work.on_within, Work.on_adapt,
          Parameters.on_addInPlace, ok_bind, ParameterizedJob.addParameter]
        cases b.parameters.add q <;> rfl

end JobCall

/-! ## Operations in place -/

namespace Dict

variable {α : Type}

/-- Setting a name to what it has changes nothing. -/
theorem insert_of_get? {d : Dict α} {name : String} {a : α} (h : d.get? name = some a) :
    d.insert name a = d := by
  have he (es : List (String × α)) (hs : valueAt? name es = some a) : setEntry name a es = es := by
    induction es with
    | nil => cases hs
    | cons e es ih =>
      rw [valueAt?] at hs
      rw [setEntry]
      split at hs
      · rename_i hk
        rw [if_pos hk, ← Option.some.inj hs]
      · rename_i hk
        rw [if_neg hk, ih hs]
  exact Dict.ext (he d.entries h)

end Dict

namespace Session

/-- Work on the job under an id. -/
def onJob (id : String) (x : Work AnyJob Failure Unit) : Work Session Failure Unit := do
  let j ← Work.settled (find (← get).jobs id)
  Work.within j (fun s j' => s.putJob id j') x

/-- Carries out an operation in place, one change after the other. -/
def perform : Op → Work Session Failure Answer
  | .register id executor => do
    let e : HeldExecutor := ⟨⟨(← get).next⟩, executor⟩
    modify fun s => { s with next := s.next + 1 }
    modify fun s => { s with executors := s.executors.insert id e }
    return .done
  | .hold id other => do
    let e ← Work.settled (find (← get).executors id)
    modify fun s => { s with executors := s.executors.insert other e }
    return .done
  | .drop id => do
    let wasHeld := (← get).executors.contains id
    modify fun s => { s with executors := s.executors.erase id }
    return .dropped wasHeld
  | .step id v => do
    let step ← Work.settled ((Step.ofValue v).mapError .step)
    modify fun s => { s with steps := s.steps.insert id step }
    return .done
  | .job id name executor parameterized setup => do
    let e ← Work.settled (find (← get).executors executor)
    let j ← Work.settled ((← get).buildJob name e.handle parameterized setup)
    modify (·.putJob id j)
    return .done
  | .cloneJob job other => do
    let j ← Work.settled (find (← get).jobs job)
    modify (·.putJob other j)
    return .done
  | .parameterize job ps => do
    let ps ← Work.settled ((ps.mapM id >>= Parameters.ofListInPlace).mapError .build)
    onJob job (modify fun j => .parameterized ⟨j.job, ps⟩)
    return .done
  | .addStep job source => do
    let step ← Work.settled ((← get).stepOf source)
    onJob job (JobCall.inPlace (.addStep step))
    return .done
  | .change job c => do
    onJob job (JobCall.inPlace (.change c))
    return .done
  | .addParameter job p => do
    onJob job (JobCall.inPlace (.addParameter p))
    return .done
  | .info job => do
    let j ← Work.settled (find (← get).jobs job)
    return .info ⟨j, ((← get).held j.job.executor).map Executor.component⟩
  | .contents job ctx => do
    let j ← Work.settled (find (← get).jobs job)
    let v ← Work.settled ((j.contents (← get).held ctx).mapError .generate)
    return .value v
  | .generate job ctx => do
    let j ← Work.settled (find (← get).jobs job)
    let v ← Work.settled ((j.generate (← get).held ctx).mapError .generate)
    return .value v
  | .render jobs version ctx => do
    let js ← Work.settled (findAll (← get).jobs jobs)
    let v ← Work.settled ((Document.render version js (← get).held ctx).mapError .generate)
    return .value v

/-- Carries out operations in place, one after the other. -/
def performAll (ops : List Op) : StateM Session (List (Outcome Answer)) :=
  ops.mapM fun op => (perform op).run

variable {s : Session} {op : Op}

/-- Putting a job back where it is changes nothing. -/
theorem putJob_of_find {id : String} {j : AnyJob} (h : find s.jobs id = .ok j) :
    s.putJob id j = s := by
  rw [putJob, Dict.insert_of_get? (find_eq_ok_iff.mp h)]

/-- Work on a job that leaves the job as it was when it fails leaves the session as it was. -/
theorem on_onJob {id : String} {x : Work AnyJob Failure Unit} {f : AnyJob → Outcome AnyJob}
    (hx : ∀ j, x.on j = Work.expected j ((fun j' => (j', ())) <$> f j)) :
    Work.on (onJob id x >>= fun _ => pure Answer.done) s =
      Work.expected s (find s.jobs id >>= fun j => f j >>= fun j' =>
        pure (s.putJob id j', .done)) := by
  have ho : Work.on (onJob id x) s =
      Work.on (Work.settled (find s.jobs id) >>= fun j =>
        Work.within j (fun s j' => s.putJob id j') x) s := rfl
  simp only [Work.on_bind, ho, Work.on_settled]
  cases hj : find s.jobs id with
  | error e => rfl
  | ok j =>
    simp only [Work.on_within, hx, ok_bind]
    cases f j with
    | error e => exact congrArg (Prod.mk _) (putJob_of_find hj)
    | ok j' => rfl

theorem on_perform (s : Session) (op : Op) : (perform op).on s = Work.expected s (s.step op) := by
  cases op with
  | register id e => rfl
  | drop id => rfl
  | hold id other => exact Work.on_get_settled_bind fun e _ => rfl
  | step id v => exact Work.on_settled_bind fun step _ => rfl
  | cloneJob id other => exact Work.on_get_settled_bind fun j _ => rfl
  | job id name executor parameterized setup =>
    exact Work.on_get_settled_bind fun e _ => Work.on_get_settled_bind fun j _ => rfl
  | parameterize job ps =>
    have hb : ps.mapM id >>= Parameters.ofListInPlace = buildParameters ps := by
      rw [funext Parameters.ofListInPlace_eq, buildParameters]
    have hp : (perform (.parameterize job ps)).on s =
        Work.on (Work.settled ((ps.mapM id >>= Parameters.ofListInPlace).mapError .build) >>=
          fun ps => onJob job (modify fun j => .parameterized ⟨j.job, ps⟩) >>=
            fun _ => pure .done) s := rfl
    rw [hp, hb]
    exact Work.on_settled_bind fun ps _ =>
      on_onJob (f := fun j => .ok (.parameterized ⟨j.job, ps⟩)) fun j => rfl
  | addStep id source =>
    have hs : s.step (.addStep id source) = s.stepOf source >>= fun step =>
        find s.jobs id >>= fun j => j.apply (.addStep step) >>= fun j' =>
          pure (s.putJob id j', .done) := rfl
    rw [hs]
    exact Work.on_get_settled_bind fun step _ => on_onJob (JobCall.on_inPlace _)
  | change id c =>
    rw [step_of_call rfl]
    exact on_onJob (JobCall.on_inPlace _)
  | addParameter id p =>
    rw [step_of_call rfl]
    exact on_onJob (JobCall.on_inPlace _)
  | info id => exact Work.on_get_settled_bind fun j _ => rfl
  | contents id ctx =>
    exact Work.on_get_settled_bind fun j _ => Work.on_get_settled_bind fun v _ => rfl
  | generate id ctx =>
    exact Work.on_get_settled_bind fun j _ => Work.on_get_settled_bind fun v _ => rfl
  | render ids version ctx =>
    exact Work.on_get_settled_bind fun js _ => Work.on_get_settled_bind fun v _ => rfl

theorem run_perform (s : Session) (op : Op) :
    (perform op).run.run s = ((s.run op).2, (s.run op).1) := by
  refine (on_perform s op).trans ?_
  rw [run]
  cases s.step op <;> rfl

theorem runAll_cons (s : Session) (op : Op) (ops : List Op) :
    s.runAll (op :: ops) =
      (((s.run op).1.runAll ops).1, (s.run op).2 :: ((s.run op).1.runAll ops).2) := rfl

/-- Carried out in place, operations give the same answers and lead to the same session. -/
theorem run_performAll (s : Session) (ops : List Op) :
    (performAll ops).run s = ((s.runAll ops).2, (s.runAll ops).1) := by
  induction ops generalizing s with
  | nil => rfl
  | cons op ops ih =>
    have hc : (performAll (op :: ops)).run s =
        let (a, s') := (perform op).run.run s
        let (answers, s'') := (performAll ops).run s'
        (a :: answers, s'') := by
      rw [performAll, List.mapM_cons]
      rfl
    rw [hc, run_perform]
    simp only [ih, runAll_cons]

/-! ## Operations that leave no trace -/

/-- The operation only reads. -/
def Op.reads : Op → Bool
  | .info _ => true
  | .contents _ _ => true
  | .generate _ _ => true
  | .render _ _ _ => true
  | _ => false

theorem step_of_reads {s' : Session} {a : Answer} (hr : op.reads = true)
    (h : s.step op = .ok (s', a)) : s' = s := by
  cases op with
  | info id =>
    simp only [step, bind_eq_ok, pure_eq_ok_iff, Prod.mk.injEq] at h
    obtain ⟨j, -, rfl, -⟩ := h
    rfl
  | contents id ctx =>
    simp only [step, bind_eq_ok, pure_eq_ok_iff, Prod.mk.injEq] at h
    obtain ⟨j, -, v, -, rfl, -⟩ := h
    rfl
  | generate id ctx =>
    simp only [step, bind_eq_ok, pure_eq_ok_iff, Prod.mk.injEq] at h
    obtain ⟨j, -, v, -, rfl, -⟩ := h
    rfl
  | render ids version ctx =>
    simp only [step, bind_eq_ok, pure_eq_ok_iff, Prod.mk.injEq] at h
    obtain ⟨js, -, v, -, rfl, -⟩ := h
    rfl
  | _ => cases hr

/-- An operation that fails or only reads leaves the session as it was. -/
theorem run_of_idle (h : op.reads = true ∨ ∃ e, (s.run op).2 = .error e) : (s.run op).1 = s := by
  rw [run] at h ⊢
  cases hs : s.step op with
  | error e => rfl
  | ok r =>
    rw [hs] at h
    rcases h with hr | ⟨e, he⟩
    · exact step_of_reads hr hs
    · cases he

/-- A run without an operation that fails or only reads goes on from the same session. -/
theorem runAll_of_idle {ops : List Op} {i : Nat} {answer : Outcome Answer}
    (hop : ops[i]? = some op) (ha : (s.runAll ops).2[i]? = some answer)
    (h : op.reads = true ∨ ∃ e, answer = .error e) :
    (s.runAll (ops.take (i + 1))).1 = (s.runAll (ops.take i)).1 ∧
      s.runAll (ops.eraseIdx i) = ((s.runAll ops).1, (s.runAll ops).2.eraseIdx i) := by
  induction ops generalizing s i with
  | nil => cases hop
  | cons first ops ih =>
    rw [runAll_cons] at ha
    cases i with
    | zero =>
      obtain rfl : first = op := Option.some.inj hop
      obtain rfl : (s.run first).2 = answer := Option.some.inj ha
      have hs := run_of_idle h
      exact ⟨hs, by simp only [runAll_cons, hs, List.eraseIdx_cons_zero]⟩
    | succ i =>
      obtain ⟨ht, he⟩ := ih hop ha
      exact ⟨ht, by simp only [runAll_cons, List.eraseIdx_cons_succ, he]⟩

/-- The session before an operation of a run that fails or only reads is the session after it, and
without the operation the others give the same answers and lead to the same session. This is so as
well when they are carried out in place and what an operation has changed before it fails is not
undone. -/
theorem runAll_eraseIdx {ops : List Op} {i : Nat} {answer : Outcome Answer}
    (hop : ops[i]? = some op) (ha : (s.runAll ops).2[i]? = some answer)
    (h : op.reads = true ∨ ∃ e, answer = .error e) :
    (s.runAll (ops.take (i + 1))).1 = (s.runAll (ops.take i)).1 ∧
      s.runAll (ops.eraseIdx i) = ((s.runAll ops).1, (s.runAll ops).2.eraseIdx i) ∧
      (performAll ops).run s = ((s.runAll ops).2, (s.runAll ops).1) ∧
      (performAll (ops.eraseIdx i)).run s =
        (((performAll ops).run s).1.eraseIdx i, ((performAll ops).run s).2) := by
  obtain ⟨ht, he⟩ := runAll_of_idle hop ha h
  refine ⟨ht, he, run_performAll s ops, ?_⟩
  simp only [run_performAll, he]

/-- The second declaration of a parameter fails; without it the job is generated as with it. -/
theorem runAll_eraseIdx_declared_twice :
    let ops : List Op := [.register "e" (.reusable "node" ∅), .job "j" "build" "e" true none,
      .addParameter "j" (.declared "tag" ⟨.string, some (.str "a"), none, none⟩),
      .addParameter "j" (.declared "tag" ⟨.boolean, none, none, none⟩), .info "j",
      .generate "j" ⟨true, ∅, none⟩]
    (Session.empty.runAll ops).2[3]? = some (.error (.build (.duplicateName "tag"))) ∧
      (Session.empty.runAll (ops.eraseIdx 3)).2 = (Session.empty.runAll ops).2.eraseIdx 3 ∧
      ((performAll (ops.eraseIdx 3)).run Session.empty).1 =
        ((performAll ops).run Session.empty).1.eraseIdx 3 := by
  intro ops
  have ha : (Session.empty.runAll ops).2[3]? = some (.error (.build (.duplicateName "tag"))) := by
    decide +kernel
  obtain ⟨-, he, -, hp⟩ := runAll_eraseIdx (i := 3) rfl ha (.inr ⟨_, rfl⟩)
  exact ⟨ha, congrArg Prod.snd he, congrArg Prod.fst hp⟩

end Session

end JobConfig

import JobConfig.Session
import JobConfig.Proofs.Checked
import JobConfig.Proofs.Documents

/-!
# Who holds an executor

A session's jobs do not hold their executors; only ids do. `Custody` is told from the operations
alone: it numbers the executor instances in the order in which they were registered and says which
of them each id holds and on which of them the job under each id was built. It says of every run
what the session's own handles come to (`Agrees`), because each operation that is carried out
changes both alike (`Agrees.step`).

So a job cannot be generated for want of an executor exactly when nothing holds the very instance
that it was built on (`generated_iff_held`). An instance that nothing holds is never held again, not
even when an equal executor is registered; one that an id holds stays held as long as this id is
left alone; and nothing that is done to other jobs makes a difference.
-/

namespace JobConfig.Session

/-! ## Custody -/

namespace Op

/-- The operation says anew what an id holds. -/
def rebinds (id : String) : Op → Bool
  | register i _ => i = id
  | hold _ i => i = id
  | drop i => i = id
  | _ => false

/-- The operation puts a new job under an id. -/
def rebuilds (id : String) : Op → Bool
  | job i _ _ _ _ => i = id
  | cloneJob _ i => i = id
  | _ => false

end Op

/-- Which executor instances there are, by number, and who refers to them. -/
structure Custody where
  /-- The executors in the order in which they were registered. -/
  registered : List Executor
  /-- The instance that an id holds. -/
  holder : String → Option Nat
  /-- The instance on which the job under an id was built. -/
  origin : String → Option Nat

namespace Custody

/-- Nothing is registered. -/
def empty : Custody :=
  ⟨[], fun _ => none, fun _ => none⟩

/-- Some id holds the instance. -/
def IsHeld (c : Custody) (n : Nat) : Prop :=
  ∃ id, c.holder id = some n

def setHolder (c : Custody) (id : String) (n : Option Nat) : Custody :=
  { c with holder := fun other => if id = other then n else c.holder other }

def setOrigin (c : Custody) (id : String) (n : Option Nat) : Custody :=
  { c with origin := fun other => if id = other then n else c.origin other }

/-- What an operation changes that is carried out. -/
def apply (c : Custody) : Op → Custody
  | .register id e =>
    { c with registered := c.registered ++ [e] }.setHolder id (some c.registered.length)
  | .hold id other => c.setHolder other (c.holder id)
  | .drop id => c.setHolder id none
  | .job id _ executor _ _ => c.setOrigin id (c.holder executor)
  | .cloneJob id other => c.setOrigin other (c.origin id)
  | _ => c

/-- The custody after an operation, by its outcome: one that fails changes nothing. -/
def record (c : Custody) (op : Op) : Outcome Answer → Custody
  | .ok _ => c.apply op
  | .error _ => c

/-- The custody after a run that starts in a session. -/
def follow (c : Custody) (s : Session) : List Op → Custody
  | [] => c
  | op :: rest => (c.record op (s.run op).2).follow (s.run op).1 rest

variable {c : Custody} {n : Nat} {id : String}

/-! ### What operations keep -/

theorem length_apply (c : Custody) (op : Op) :
    c.registered.length ≤ (c.apply op).registered.length := by
  cases op with
  | register id e => simp [apply, setHolder]
  | _ => exact Nat.le_refl _

theorem isHeld_setHolder {m : Option Nat} (h : (c.setHolder id m).IsHeld n) :
    m = some n ∨ c.IsHeld n := by
  obtain ⟨other, h⟩ := h
  simp only [setHolder] at h
  split at h
  · exact .inl h
  · exact .inr ⟨other, h⟩

/-- Only what is held can be taken hold of. -/
theorem isHeld_of_apply (hn : n < c.registered.length) {op : Op} (h : (c.apply op).IsHeld n) :
    c.IsHeld n := by
  cases op with
  | register id e =>
    rcases isHeld_setHolder h with h | h
    · cases h
      omega
    · exact h
  | hold id other => exact (isHeld_setHolder h).elim (fun h => ⟨id, h⟩) (fun h => h)
  | drop id => exact (isHeld_setHolder h).elim nofun (fun h => h)
  | _ => exact h

theorem holder_apply {op : Op} (h : op.rebinds id = false) :
    (c.apply op).holder id = c.holder id := by
  cases op with
  | register i e => exact if_neg (of_decide_eq_false h)
  | hold i other => exact if_neg (of_decide_eq_false h)
  | drop i => exact if_neg (of_decide_eq_false h)
  | _ => rfl

theorem origin_apply {op : Op} (h : op.rebuilds id = false) :
    (c.apply op).origin id = c.origin id := by
  cases op with
  | job i name executor parameterized setup => exact if_neg (of_decide_eq_false h)
  | cloneJob i other => exact if_neg (of_decide_eq_false h)
  | _ => rfl

end Custody

/-! ## What operations do to a session -/

theorem find_eq_ok_iff {α : Type} {d : Dict α} {id : String} {a : α} :
    find d id = .ok a ↔ d.get? id = some a := by
  unfold find
  cases d.get? id <;> simp

variable {s s' : Session} {a : Answer}

/-- A job that is built runs in the instance that it was given. -/
theorem buildJob_executor {name : String} {h : Handle} {parameterized : Bool}
    {setup : Option JobSetup} {j : AnyJob}
    (hj : s.buildJob name h parameterized setup = .ok j) : j.job.executor = h := by
  have hp {b : Job} (hb : b.executor = h) :
      (if parameterized then AnyJob.parameterized ⟨b, ∅⟩ else .plain b).job.executor = h := by
    cases parameterized <;> exact hb
  unfold buildJob at hj
  cases setup with
  | none =>
    simp only [bind_eq_ok, mapError_eq_ok, pure_eq_ok_iff] at hj
    obtain ⟨b, hb, rfl⟩ := hj
    exact hp (Job.executor_of_withProperties hb)
  | some setup =>
    simp only [bind_eq_ok, mapError_eq_ok, pure_eq_ok_iff] at hj
    obtain ⟨steps, -, b, hb, rfl⟩ := hj
    exact hp (Job.executor_of_withProperties hb)

theorem withParameter_job {j j' : ParameterizedJob} {p : ParameterSource}
    (h : withParameter j p = .ok j') : j'.job = j.job := by
  cases p with
  | declared name d =>
    obtain ⟨p, -, h⟩ := bind_eq_ok.mp h
    obtain ⟨ps, -, rfl⟩ := ParameterizedJob.addParameter_eq_ok_iff.mp h
    rfl
  | built p =>
    obtain ⟨p, -, h⟩ := bind_eq_ok.mp h
    obtain ⟨ps, -, rfl⟩ := ParameterizedJob.addParameter_eq_ok_iff.mp h
    rfl

theorem modify_executor {f : Job → Job} (hf : ∀ b : Job, (f b).executor = b.executor) (j : AnyJob) :
    (j.modify f).job.executor = j.job.executor := by
  cases j <;> exact hf _

/-! ## Agreement -/

/-- The handles of a session are the numbers that custody gives to its instances. -/
structure Agrees (s : Session) (c : Custody) : Prop where
  next : s.next = c.registered.length
  holder : ∀ id, c.holder id = (s.executors.get? id).map (·.handle.number)
  executor : ∀ id e, s.executors.get? id = some e →
    c.registered[e.handle.number]? = some e.executor
  origin : ∀ id, c.origin id = (s.jobs.get? id).map (·.job.executor.number)
  built : ∀ id n, c.origin id = some n → n < c.registered.length

namespace Agrees

variable {c : Custody} {id : String} {j : AnyJob} {e : HeldExecutor}

theorem empty : Agrees .empty .empty where
  next := rfl
  holder _ := rfl
  executor _ _ := nofun
  origin _ := rfl
  built _ _ := nofun

theorem number_lt (h : Agrees s c) (he : s.executors.get? id = some e) :
    e.handle.number < c.registered.length :=
  (List.getElem?_eq_some_iff.mp (h.executor id e he)).1

/-- An id that takes hold of a registered instance. -/
theorem insertExecutor (h : Agrees s c) (id : String)
    (he : c.registered[e.handle.number]? = some e.executor) :
    Agrees { s with executors := s.executors.insert id e }
      (c.setHolder id (some e.handle.number)) where
  next := h.next
  holder other := by
    rw [Dict.get?_insert, apply_ite (Option.map _), ← h.holder other]
    rfl
  executor other e' he' := by
    rw [Dict.get?_insert] at he'
    split at he'
    · cases he'
      exact he
    · exact h.executor other e' he'
  origin := h.origin
  built := h.built

/-- An instance that is registered, not held yet. -/
theorem register (h : Agrees s c) (e : Executor) :
    Agrees { s with next := s.next + 1 } { c with registered := c.registered ++ [e] } where
  next := by
    rw [List.length_append, ← h.next]
    rfl
  holder := h.holder
  executor id e' he := by
    rw [List.getElem?_append_left (h.number_lt he)]
    exact h.executor id e' he
  origin := h.origin
  built id n hn := by
    rw [List.length_append]
    exact Nat.lt_add_right _ (h.built id n hn)

theorem eraseExecutor (h : Agrees s c) (id : String) :
    Agrees { s with executors := s.executors.erase id } (c.setHolder id none) where
  next := h.next
  holder other := by
    rw [Dict.get?_erase, apply_ite (Option.map _), ← h.holder other]
    rfl
  executor other e' he' := by
    rw [Dict.get?_erase] at he'
    split at he'
    · cases he'
    · exact h.executor other e' he'
  origin := h.origin
  built := h.built

/-- Putting a job under an id is building it on its executor's instance. -/
theorem putJob (h : Agrees s c) (id : String) (hj : j.job.executor.number < c.registered.length) :
    Agrees (s.putJob id j) (c.setOrigin id (some j.job.executor.number)) where
  next := h.next
  holder := h.holder
  executor := h.executor
  origin other := by
    rw [Session.putJob, Dict.get?_insert, apply_ite (Option.map _), ← h.origin other]
    rfl
  built other n hn := by
    simp only [Custody.setOrigin] at hn
    split at hn
    · cases hn
      exact hj
    · exact h.built other n hn

/-- A job that stays in its executor can be changed under its id. -/
theorem replaceJob (h : Agrees s c) {j' : AnyJob} (hj : s.jobs.get? id = some j)
    (he : j'.job.executor = j.job.executor) : Agrees (s.putJob id j') c := by
  have ho : c.origin id = some j'.job.executor.number := by
    rw [h.origin, hj, he, Option.map_some]
  have hs : c.setOrigin id (some j'.job.executor.number) = c := by
    rw [← ho, Custody.setOrigin]
    congr
    funext other
    split
    · rename_i hi
      rw [hi]
    · rfl
  exact hs ▸ h.putJob id (h.built id _ ho)

/-- What is carried out changes a session and its custody alike. -/
theorem step (h : Agrees s c) {op : Op} (hs : s.step op = .ok (s', a)) :
    Agrees s' (c.apply op) := by
  cases op with
  | register id e =>
    simp only [Session.step, Except.ok.injEq, Prod.mk.injEq] at hs
    obtain ⟨rfl, -⟩ := hs
    rw [Custody.apply, ← h.next]
    refine (h.register e).insertExecutor (e := ⟨⟨s.next⟩, e⟩) id ?_
    simp [h.next]
  | hold id other =>
    simp only [Session.step, bind_eq_ok, find_eq_ok_iff, pure_eq_ok_iff, Prod.mk.injEq] at hs
    obtain ⟨e, he, rfl, -⟩ := hs
    rw [Custody.apply, h.holder, he]
    exact h.insertExecutor other (h.executor id e he)
  | drop id =>
    simp only [Session.step, Except.ok.injEq, Prod.mk.injEq] at hs
    obtain ⟨rfl, -⟩ := hs
    exact h.eraseExecutor id
  | job id name executor parameterized setup =>
    simp only [Session.step, bind_eq_ok, find_eq_ok_iff, pure_eq_ok_iff, Prod.mk.injEq] at hs
    obtain ⟨e, he, j, hj, rfl, -⟩ := hs
    have hb := buildJob_executor hj
    rw [Custody.apply, h.holder, he, Option.map_some, ← hb]
    exact h.putJob id (hb ▸ h.number_lt he)
  | cloneJob id other =>
    simp only [Session.step, bind_eq_ok, find_eq_ok_iff, pure_eq_ok_iff, Prod.mk.injEq] at hs
    obtain ⟨j, hj, rfl, -⟩ := hs
    have ho : c.origin id = some j.job.executor.number := by
      rw [h.origin, hj, Option.map_some]
    rw [Custody.apply, ho]
    exact h.putJob other (h.built id _ ho)
  | parameterize id ps =>
    simp only [Session.step, bind_eq_ok, find_eq_ok_iff, pure_eq_ok_iff, Prod.mk.injEq] at hs
    obtain ⟨ps, -, j, hj, rfl, -⟩ := hs
    exact h.replaceJob hj rfl
  | addStep id source =>
    simp only [Session.step, bind_eq_ok, find_eq_ok_iff, pure_eq_ok_iff, Prod.mk.injEq] at hs
    obtain ⟨x, -, j, hj, rfl, -⟩ := hs
    exact h.replaceJob hj (modify_executor (f := fun b => b.addStep x) (fun _ => rfl) j)
  | change id x =>
    simp only [Session.step, bind_eq_ok, find_eq_ok_iff, pure_eq_ok_iff, Prod.mk.injEq] at hs
    obtain ⟨j, hj, rfl, -⟩ := hs
    exact h.replaceJob hj (modify_executor (fun b => by cases x <;> rfl) j)
  | addParameter id p =>
    simp only [Session.step, bind_eq_ok, find_eq_ok_iff] at hs
    obtain ⟨j, hj, hs⟩ := hs
    cases j with
    | plain b => cases hs
    | parameterized b =>
      simp only [bind_eq_ok, mapError_eq_ok, pure_eq_ok_iff, Prod.mk.injEq] at hs
      obtain ⟨b', hb, rfl, -⟩ := hs
      have he : (AnyJob.parameterized b').job.executor = (AnyJob.parameterized b).job.executor :=
        congrArg Job.executor (withParameter_job hb)
      exact h.replaceJob hj he
  | step id v =>
    simp only [Session.step, bind_eq_ok, pure_eq_ok_iff, Prod.mk.injEq] at hs
    obtain ⟨x, -, rfl, -⟩ := hs
    exact ⟨h.next, h.holder, h.executor, h.origin, h.built⟩
  | info id =>
    simp only [Session.step, bind_eq_ok, pure_eq_ok_iff, Prod.mk.injEq] at hs
    obtain ⟨j, -, rfl, -⟩ := hs
    exact h
  | contents id ctx =>
    simp only [Session.step, bind_eq_ok, pure_eq_ok_iff, Prod.mk.injEq] at hs
    obtain ⟨j, -, v, -, rfl, -⟩ := hs
    exact h
  | generate id ctx =>
    simp only [Session.step, bind_eq_ok, pure_eq_ok_iff, Prod.mk.injEq] at hs
    obtain ⟨j, -, v, -, rfl, -⟩ := hs
    exact h
  | render ids version ctx =>
    simp only [Session.step, bind_eq_ok, pure_eq_ok_iff, Prod.mk.injEq] at hs
    obtain ⟨js, -, v, -, rfl, -⟩ := hs
    exact h

theorem run (h : Agrees s c) (op : Op) : Agrees (s.run op).1 (c.record op (s.run op).2) := by
  unfold Session.run
  split
  · rename_i hs
    exact h.step hs
  · exact h

/-- A session and its custody agree all along a run. -/
theorem runAll (h : Agrees s c) (ops : List Op) : Agrees (s.runAll ops).1 (c.follow s ops) := by
  induction ops generalizing s c with
  | nil => exact h
  | cons op ops ih => exact ih (h.run op)

theorem isHeld_iff (h : Agrees s c) {n : Nat} :
    c.IsHeld n ↔ ∃ e ∈ s.executors.entries.map Prod.snd, e.handle.number = n := by
  simp only [Custody.IsHeld, h.holder, Option.map_eq_some_iff, List.mem_map, Prod.exists,
    Dict.mem_entries_iff]
  constructor
  · rintro ⟨id, e, he, hn⟩
    exact ⟨e, ⟨id, e, he, rfl⟩, hn⟩
  · rintro ⟨_, ⟨id, e, he, rfl⟩, hn⟩
    exact ⟨id, e, he, hn⟩

/-- A session holds the instances that some id holds, and no others. -/
theorem held_eq_none_iff (h : Agrees s c) (i : Handle) :
    s.held i = none ↔ ¬ c.IsHeld i.number := by
  rw [h.isHeld_iff, Session.held, Held.ofList_eq_none_iff]
  have hi (e : HeldExecutor) : e.handle = i ↔ e.handle.number = i.number :=
    ⟨congrArg Handle.number, congrArg Handle.mk⟩
  simp only [ne_eq, hi, not_exists, not_and]

/-- What is held under a handle is what was registered as this instance. -/
theorem registered_of_held (h : Agrees s c) {i : Handle} {x : Executor} (hx : s.held i = some x) :
    c.registered[i.number]? = some x := by
  obtain ⟨⟨id, e⟩, he, hi⟩ := List.mem_map.mp (Held.mem_of_ofList hx)
  cases hi
  exact h.executor id _ (Dict.mem_entries_iff.mp he)

end Agrees

/-! ## Runs -/

namespace Custody

variable {c : Custody} {n : Nat} {id : String}

/-- What each operation keeps a run keeps, for an operation that fails changes nothing. -/
theorem follow_keeps {P : Custody → Prop} (hp : P c) (s : Session) (ops : List Op)
    (h : ∀ op ∈ ops, ∀ c, P c → P (c.apply op)) : P (c.follow s ops) := by
  induction ops generalizing s c with
  | nil => exact hp
  | cons op ops ih =>
    rw [List.forall_mem_cons] at h
    have hr : P (c.record op (s.run op).2) := by
      cases (s.run op).2 with
      | ok a => exact h.1 c hp
      | error e => exact hp
    exact ih hr _ h.2

/-- An instance that nothing holds is never held again. -/
theorem isHeld_of_follow (s : Session) (ops : List Op) (hn : n < c.registered.length)
    (h : (c.follow s ops).IsHeld n) : c.IsHeld n := by
  -- That the instance has been registered is kept along, as no new one takes its number then.
  have hk : n < (c.follow s ops).registered.length ∧ ((c.follow s ops).IsHeld n → c.IsHeld n) := by
    refine follow_keeps (P := fun c' => n < c'.registered.length ∧ (c'.IsHeld n → c.IsHeld n))
      ⟨hn, fun hc => hc⟩ s ops ?_
    rintro op - c' ⟨hn', hc'⟩
    exact ⟨hn'.trans_le (c'.length_apply op), fun ha => hc' (isHeld_of_apply hn' ha)⟩
  exact hk.2 h

theorem holder_follow (s : Session) (ops : List Op) (h : ∀ op ∈ ops, op.rebinds id = false) :
    (c.follow s ops).holder id = c.holder id :=
  follow_keeps (P := fun c' => c'.holder id = c.holder id) rfl s ops
    fun op hop _ hc => (holder_apply (h op hop)).trans hc

theorem origin_follow (s : Session) (ops : List Op) (h : ∀ op ∈ ops, op.rebuilds id = false) :
    (c.follow s ops).origin id = c.origin id :=
  follow_keeps (P := fun c' => c'.origin id = c.origin id) rfl s ops
    fun op hop _ hc => (origin_apply (h op hop)).trans hc

theorem follow_append (c : Custody) (s : Session) (ops more : List Op) :
    c.follow s (ops ++ more) = (c.follow s ops).follow (s.runAll ops).1 more := by
  induction ops generalizing s c with
  | nil => rfl
  | cons op ops ih => exact ih _ _

end Custody

/-! ## Generating in a session -/

section Generating

variable {id : String} {j : AnyJob} {e : GenerateError}

theorem run_contents_iff (hj : s.jobs.get? id = some j) (ctx : Context) :
    (s.run (.contents id ctx)).2 = .error (.generate e) ↔ j.contents s.held ctx = .error e := by
  simp only [run, step, find_eq_ok_iff.mpr hj, ok_bind]
  cases j.contents s.held ctx <;> simp

theorem run_generate_iff (hj : s.jobs.get? id = some j) (ctx : Context) :
    (s.run (.generate id ctx)).2 = .error (.generate e) ↔ j.contents s.held ctx = .error e := by
  simp only [run, step, find_eq_ok_iff.mpr hj, ok_bind, AnyJob.generate]
  cases j.contents s.held ctx <;> simp

/-- Rendering a job alone fails as generating it does. -/
theorem run_render_iff (hj : s.jobs.get? id = some j) (version : Double) (ctx : Context) :
    (s.run (.render [id] version ctx)).2 = .error (.generate e) ↔
      j.contents s.held ctx = .error e := by
  have hf : findAll s.jobs [id] = .ok [j] := by
    simp [findAll, find_eq_ok_iff.mpr hj]
  have hr : Document.jobEntries s.held ctx [] [j] =
      (fun v => [(j.name, v)]) <$> j.contents s.held ctx := by
    rw [Document.jobEntries_of_notMem List.not_mem_nil]
    cases j.contents s.held ctx <;> rfl
  simp only [run, step, hf, ok_bind, Document.render, hr]
  cases j.contents s.held ctx <;> simp

end Generating

/-- The session after a run. -/
def after (ops : List Op) : Session :=
  (Session.empty.runAll ops).1

/-- Who holds what after a run. -/
def custody (ops : List Op) : Custody :=
  Custody.empty.follow .empty ops

theorem custody_append (ops more : List Op) :
    custody (ops ++ more) = (custody ops).follow (after ops) more :=
  Custody.follow_append ..

theorem agrees_after (ops : List Op) : Agrees (after ops) (custody ops) :=
  Agrees.empty.runAll ops

/-- After every run, a job cannot be generated for want of an executor exactly if nothing holds the
instance any more that it, or the job it comes from, was built on; otherwise its executor is the one
that was registered as this instance. Whatever happens then, an instance that nothing holds stays
gone, and one that an id holds stays held unless this id is bound anew. The job stays on its
instance unless a new job takes its id, and operations that bind no id to an executor change nothing
about who is held. -/
theorem generated_iff_held (ops : List Op) {id : String} {j : AnyJob}
    (hj : (after ops).jobs.get? id = some j) :
    ∃ n e, (custody ops).origin id = some n ∧ (custody ops).registered[n]? = some e ∧
      (∀ ctx, ((after ops).run (.contents id ctx)).2 =
        .error (.generate (.undefinedExecutor j.name)) ↔ ¬ (custody ops).IsHeld n) ∧
      (∀ ctx, ((after ops).run (.generate id ctx)).2 =
        .error (.generate (.undefinedExecutor j.name)) ↔ ¬ (custody ops).IsHeld n) ∧
      (∀ version ctx, ((after ops).run (.render [id] version ctx)).2 =
        .error (.generate (.undefinedExecutor j.name)) ↔ ¬ (custody ops).IsHeld n) ∧
      ((custody ops).IsHeld n → (after ops).held j.job.executor = some e) ∧
      ∀ more,
        (¬ (custody ops).IsHeld n → ¬ (custody (ops ++ more)).IsHeld n) ∧
        (∀ other, (custody ops).holder other = some n →
          (∀ op ∈ more, op.rebinds other = false) →
          (custody (ops ++ more)).holder other = some n) ∧
        ((∀ op ∈ more, op.rebuilds id = false) →
          (custody (ops ++ more)).origin id = some n ∧
          ∃ j', (after (ops ++ more)).jobs.get? id = some j') ∧
        ((∀ op ∈ more, ∀ other, op.rebinds other = false) →
          ((custody (ops ++ more)).IsHeld n ↔ (custody ops).IsHeld n)) := by
  have ha := agrees_after ops
  have ho : (custody ops).origin id = some j.job.executor.number := by
    rw [ha.origin, hj, Option.map_some]
  have hn := ha.built id _ ho
  have he := List.getElem?_eq_getElem hn
  have hg (ctx : Context) : j.contents (after ops).held ctx = .error (.undefinedExecutor j.name) ↔
      ¬ (custody ops).IsHeld j.job.executor.number := by
    rw [AnyJob.contents_eq_undefinedExecutor_iff, and_iff_left rfl, ha.held_eq_none_iff]
  refine ⟨j.job.executor.number, _, ho, he, ?_, ?_, ?_, ?_, fun more => ?_⟩
  · exact fun ctx => (run_contents_iff hj ctx).trans (hg ctx)
  · exact fun ctx => (run_generate_iff hj ctx).trans (hg ctx)
  · exact fun version ctx => (run_render_iff hj version ctx).trans (hg ctx)
  · intro hh
    have hs := mt (ha.held_eq_none_iff _).mp (not_not_intro hh)
    obtain ⟨x, hx⟩ := Option.ne_none_iff_exists'.mp hs
    rw [hx, ← ha.registered_of_held hx, he]
  · simp only [custody_append]
    have hgone := Custody.isHeld_of_follow (after ops) more hn
    refine ⟨mt hgone, ?_, ?_, ?_⟩
    · intro other hother hr
      rw [Custody.holder_follow (after ops) more hr, hother]
    · intro hr
      have hmore := Custody.origin_follow (c := custody ops) (after ops) more hr
      refine ⟨hmore.trans ho, ?_⟩
      have hj' := (agrees_after (ops ++ more)).origin id
      rw [custody_append, hmore, ho, eq_comm, Option.map_eq_some_iff] at hj'
      obtain ⟨j', hj', -⟩ := hj'
      exact ⟨j', hj'⟩
    · intro hr
      refine ⟨hgone, ?_⟩
      rintro ⟨other, hother⟩
      exact ⟨other, (Custody.holder_follow (after ops) more fun op hop => hr op hop other).trans
        hother⟩

/-- A second id holds the executor on after an equal one has been registered under the first; when
it is dropped the clone is left without, and registering another equal one is no help. -/
theorem generated_iff_held_clone :
    let node : Executor := .reusable "node" ∅
    let ops : List Op := [.register "e" node, .hold "e" "f", .job "j" "build" "e" true none,
      .cloneJob "j" "k", .register "e" node]
    let j : AnyJob := .parameterized ⟨⟨"build", ⟨0⟩, [], {}, by decide⟩, ∅⟩
    ((after ops).jobs.get? "k" = some j ∧ (after (ops ++ [.drop "f"])).jobs.get? "k" = some j) ∧
      (after ops).held ⟨0⟩ = some node ∧
      (∀ ctx, ((after (ops ++ [.drop "f"])).run (.generate "k" ctx)).2 =
        .error (.generate (.undefinedExecutor "build"))) ∧
      ¬ (custody (ops ++ [.drop "f"] ++ [.register "f" node])).IsHeld 0 := by
  intro node ops j
  have hj : (after ops).jobs.get? "k" = some j := by decide +kernel
  have hj' : (after (ops ++ [.drop "f"])).jobs.get? "k" = some j := by decide +kernel
  have h0 : (custody ops).origin "k" = some 0 := by decide +kernel
  have h0' : (custody (ops ++ [.drop "f"])).origin "k" = some 0 := by decide +kernel
  have hh : (custody ops).IsHeld 0 := ⟨"f", by decide +kernel⟩
  have hh' : ¬ (custody (ops ++ [.drop "f"])).IsHeld 0 := by
    rw [(agrees_after _).isHeld_iff]
    decide +kernel
  obtain ⟨n, e, ho, he, -, -, -, hheld, -⟩ := generated_iff_held ops hj
  obtain rfl : 0 = n := Option.some.inj (h0.symm.trans ho)
  obtain ⟨n, -, ho, -, -, hg, -, -, hmore⟩ := generated_iff_held (ops ++ [.drop "f"]) hj'
  obtain rfl : 0 = n := Option.some.inj (h0'.symm.trans ho)
  refine ⟨⟨hj, hj'⟩, ?_, fun ctx => (hg ctx).mpr hh', (hmore [.register "f" node]).1 hh'⟩
  have hr : (custody ops).registered[0]? = some node := by decide +kernel
  rw [← hr, he]
  exact hheld hh

end JobConfig.Session

import JobConfig.Document
import JobConfig.Proofs.FieldTypes

/-!
# Documents

A document can be rendered exactly if no two of its jobs have the same name and each of them can be
generated on its own (`Document.exists_render_iff`), and otherwise it fails as the first job that is
at fault (`Document.jobEntries_eq_error_iff`). Together this is all that a document is
(`Document.rendered_iff`).

What a job can fail for depends on the context. Without parameters in scope, or without flattening,
nothing is resolved and only an executor that is held no more is in the way
(`AnyJob.contents_templated_eq_error_iff`); in no context is that executor the fault of anything
else (`AnyJob.contents_eq_undefinedExecutor_iff`). So templated documents are the same whoever asks
for them, and there is one wherever there is a flattened one (`Document.templated_of_flattened`).
-/

namespace JobConfig

/-! ## Jobs that cannot be generated -/

namespace Context

theorem lookup_ne_undefinedExecutor (ctx : Context) (ps : Parameters) (reference name : String) :
    ctx.lookup ps reference ≠ .error (.undefinedExecutor name) := by
  unfold lookup
  split
  · exact nofun
  · split <;> split <;> exact nofun

end Context

namespace Job

variable {j : Job} {held : Held} {e : Executor} {ctx ctx' : Context} {name : String}

/-- Where nothing is resolved, a job is what it writes. -/
theorem contents_of_inactive (he : held j.executor = some e) (h : ctx.activeScope = none) :
    j.contents held ctx = .ok (.ofEntries (j.written e)) := by
  rw [contents, entries_of_held he, Context.resolveEntries_eq_ok h, Except.map_ok]

/-- Contexts in which nothing is resolved make no difference to a job. -/
theorem contents_congr_of_inactive (j : Job) (held : Held) (h : ctx.activeScope = none)
    (h' : ctx'.activeScope = none) : j.contents held ctx = j.contents held ctx' := by
  cases he : held j.executor with
  | none => rw [contents_of_dropped he, contents_of_dropped he]
  | some e => rw [contents_of_inactive he h, contents_of_inactive he h']

/-- A missing executor is reported exactly if the job's own executor is held no more. -/
theorem contents_eq_undefinedExecutor_iff :
    j.contents held ctx = .error (.undefinedExecutor name) ↔
      held j.executor = none ∧ name = j.name := by
  cases he : held j.executor with
  | none =>
    rw [contents_of_dropped he]
    simp [eq_comm]
  | some e =>
    have hne : j.contents held ctx ≠ .error (.undefinedExecutor name) := by
      cases hs : ctx.activeScope with
      | none => simp [contents_of_inactive he hs]
      | some ps =>
        intro hc
        rw [← failure?_eq_some_iff, failure?_contents he hs] at hc
        obtain ⟨reference, -, hl⟩ := List.exists_of_findSome?_eq_some hc
        exact ctx.lookup_ne_undefinedExecutor ps reference name (failure?_eq_some_iff.mp hl)
    simp [hne]

end Job

namespace AnyJob

variable {j : AnyJob} {held : Held} {ctx ctx' : Context} {e : GenerateError} {name : String}

/-- A job under its name fails as the job does. -/
theorem generate_eq_error_iff : j.generate held ctx = .error e ↔ j.contents held ctx = .error e := by
  rw [generate, ← failure?_eq_some_iff, failure?_map, failure?_eq_some_iff]

/-- Templated, a job fails exactly if its executor is held no more. -/
theorem contents_templated_eq_error_iff (h : ctx.flatten = false) :
    j.contents held ctx = .error e ↔
      held j.job.executor = none ∧ e = .undefinedExecutor j.name := by
  cases he : held j.job.executor with
  | none =>
    rw [contents_templated j held h, Job.entries_of_dropped he, Except.map_error]
    simp [AnyJob.name, eq_comm]
  | some x => simp [contents_eq_written h he]

theorem exists_contents_templated_iff (h : ctx.flatten = false) :
    (∃ v, j.contents held ctx = .ok v) ↔ held j.job.executor ≠ none := by
  rw [← failure?_eq_none_iff, Option.eq_none_iff_forall_ne_some]
  simp only [ne_eq, failure?_eq_some_iff, contents_templated_eq_error_iff h]
  simp

/-- Templated contexts make no difference to a job. -/
theorem contents_congr_of_templated (j : AnyJob) (held : Held) (h : ctx.flatten = false)
    (h' : ctx'.flatten = false) : j.contents held ctx = j.contents held ctx' := by
  cases he : held j.job.executor with
  | none =>
    have hf (c : Context) (hc : c.flatten = false) :
        j.contents held c = .error (.undefinedExecutor j.name) :=
      (contents_templated_eq_error_iff hc).mpr ⟨he, rfl⟩
    rw [hf ctx h, hf ctx' h']
  | some x => rw [contents_eq_written h he, contents_eq_written h' he]

/-- A missing executor is reported exactly if the job's own executor is held no more. -/
theorem contents_eq_undefinedExecutor_iff :
    j.contents held ctx = .error (.undefinedExecutor name) ↔
      held j.job.executor = none ∧ name = j.name := by
  cases h : ctx.flatten with
  | false =>
    rw [contents_templated_eq_error_iff h]
    simp
  | true =>
    rw [contents_eq_inner j held h, Job.contents_eq_undefinedExecutor_iff]
    rfl

end AnyJob

/-! ## Rendering -/

namespace Document

variable {held : Held} {ctx : Context} {names : List String} {j : AnyJob} {jobs : List AnyJob}
  {version : Double} {e : GenerateError} {v : Value}

theorem jobEntries_nil : jobEntries held ctx names [] = .ok [] := rfl

theorem jobEntries_of_mem (h : j.name ∈ names) :
    jobEntries held ctx names (j :: jobs) = .error (.duplicateJob j.name) := by
  rw [jobEntries, if_pos h]
  rfl

theorem jobEntries_of_notMem (h : j.name ∉ names) :
    jobEntries held ctx names (j :: jobs) = do
      let v ← j.contents held ctx
      let rest ← jobEntries held ctx (names ++ [j.name]) jobs
      return (j.name, v) :: rest := by
  rw [jobEntries, if_neg h]

/-- The entries of a document are the jobs one by one, if their names are all different. -/
theorem jobEntries_eq_ok_iff {es : List (String × Value)} :
    jobEntries held ctx names jobs = .ok es ↔
      (jobs.map AnyJob.name).Nodup ∧ (∀ j ∈ jobs, j.name ∉ names) ∧
        List.Forall₂ (fun j e => e.1 = j.name ∧ j.contents held ctx = .ok e.2) jobs es := by
  induction jobs generalizing names es with
  | nil =>
    rw [jobEntries, List.forall₂_nil_left_iff]
    simp [eq_comm]
  | cons j jobs ih =>
    rw [List.map_cons, List.nodup_cons, List.forall_mem_cons, List.forall₂_cons_left_iff]
    by_cases hn : j.name ∈ names
    · simp [jobEntries_of_mem hn, hn]
    · simp only [jobEntries_of_notMem hn, bind_eq_ok, ih, pure_eq_ok_iff]
      constructor
      · rintro ⟨v, hv, rest, ⟨hd, hm, hf⟩, rfl⟩
        refine ⟨⟨?_, hd⟩, ⟨hn, fun k hk h => hm k hk (List.mem_append_left _ h)⟩,
          (j.name, v), rest, ⟨rfl, hv⟩, hf, rfl⟩
        intro hj
        obtain ⟨k, hk, he⟩ := List.mem_map.mp hj
        exact hm k hk (List.mem_append_right _ (List.mem_singleton.mpr he))
      · rintro ⟨⟨hj, hd⟩, ⟨-, hm⟩, ⟨_, v⟩, rest, ⟨rfl, hv⟩, hf, rfl⟩
        refine ⟨v, hv, rest, ⟨hd, fun k hk h => ?_, hf⟩, rfl⟩
        rcases List.mem_append.mp h with h | h
        · exact hm k hk h
        · exact hj (List.mem_singleton.mp h ▸ List.mem_map_of_mem hk)

/-- The entries of a document exist if the names are all different and each job can be generated. -/
theorem exists_jobEntries_iff :
    (∃ es, jobEntries held ctx names jobs = .ok es) ↔
      (jobs.map AnyJob.name).Nodup ∧ (∀ j ∈ jobs, j.name ∉ names) ∧
        ∀ j ∈ jobs, ∃ v, j.contents held ctx = .ok v := by
  have hj (j : AnyJob) : (∃ e : String × Value, e.1 = j.name ∧ j.contents held ctx = .ok e.2) ↔
      ∃ v, j.contents held ctx = .ok v :=
    ⟨fun ⟨e, _, hv⟩ => ⟨e.2, hv⟩, fun ⟨v, hv⟩ => ⟨(j.name, v), rfl, hv⟩⟩
  simp only [jobEntries_eq_ok_iff, exists_and_left, exists_forall₂_iff, hj]

/-- The jobs of a list come one after the other; those that follow see the names before them. -/
theorem jobEntries_append (before rest : List AnyJob) :
    jobEntries held ctx names (before ++ rest) = do
      let es ← jobEntries held ctx names before
      let fs ← jobEntries held ctx (names ++ before.map AnyJob.name) rest
      return es ++ fs := by
  induction before generalizing names with
  | nil => simp [jobEntries_nil]
  | cons j before ih =>
    rw [List.cons_append]
    by_cases hn : j.name ∈ names
    · simp [jobEntries_of_mem hn]
    · simp [jobEntries_of_notMem hn, ih]

theorem exists_split_cons_iff {α : Type} {a : α} {as : List α} {P : List α → α → Prop} :
    (∃ before b rest, a :: as = before ++ b :: rest ∧ P before b) ↔
      P [] a ∨ ∃ before b rest, as = before ++ b :: rest ∧ P (a :: before) b := by
  constructor
  · rintro ⟨before, b, rest, hs, h⟩
    rcases List.cons_eq_append_iff.mp hs with ⟨rfl, hb⟩ | ⟨before, rfl, hb⟩
    · cases hb
      exact .inl h
    · exact .inr ⟨before, b, rest, hb, h⟩
  · rintro (h | ⟨before, b, rest, rfl, h⟩)
    · exact ⟨[], a, as, rfl, h⟩
    · exact ⟨a :: before, b, rest, rfl, h⟩

/-- A document fails as the first of its jobs that is at fault: one whose name occurs before, which
is not generated any more, or one that cannot be generated. -/
theorem jobEntries_eq_error_iff :
    jobEntries held ctx names jobs = .error e ↔
      ∃ before j rest, jobs = before ++ j :: rest ∧
        (∃ es, jobEntries held ctx names before = .ok es) ∧
        (j.name ∈ names ++ before.map AnyJob.name ∧ e = .duplicateJob j.name ∨
          j.name ∉ names ++ before.map AnyJob.name ∧ j.contents held ctx = .error e) := by
  induction jobs generalizing names with
  | nil => simp [jobEntries_nil]
  | cons j jobs ih =>
    rw [exists_split_cons_iff]
    by_cases hn : j.name ∈ names
    · simp [jobEntries_nil, jobEntries_of_mem hn, hn, eq_comm]
    · cases hc : j.contents held ctx with
      | error e' => simp [jobEntries_nil, jobEntries_of_notMem hn, hn, hc]
      | ok v =>
        have he : jobEntries held ctx names (j :: jobs) = .error e ↔
            jobEntries held ctx (names ++ [j.name]) jobs = .error e := by
          rw [jobEntries_of_notMem hn, hc, ok_bind]
          cases jobEntries held ctx (names ++ [j.name]) jobs <;> simp
        have hb (before : List AnyJob) : (∃ es, jobEntries held ctx names (j :: before) = .ok es) ↔
            ∃ es, jobEntries held ctx (names ++ [j.name]) before = .ok es := by
          rw [jobEntries_of_notMem hn, hc, ok_bind]
          cases jobEntries held ctx (names ++ [j.name]) before <;> simp
        rw [he, ih]
        simp only [jobEntries_nil, hb, List.map_nil, List.append_nil, hn, false_and, reduceCtorEq,
          and_false, or_false, false_or, List.map_cons, List.append_assoc, List.singleton_append]

/-- A document is its version and, under their names, its jobs, each generated on its own. -/
theorem render_eq_ok_iff :
    render version jobs held ctx = .ok v ↔
      ∃ es, (jobs.map AnyJob.name).Nodup ∧
        List.Forall₂ (fun j e => e.1 = j.name ∧ j.contents held ctx = .ok e.2) jobs es ∧
        v = .ofEntries [("version", .float version), ("jobs", .ofEntries es)] := by
  simp only [render, bind_eq_ok, jobEntries_eq_ok_iff, pure_eq_ok_iff]
  simp [eq_comm, and_assoc]

/-- There is a document exactly if the names of the jobs are all different and each job can be
generated. -/
theorem exists_render_iff :
    (∃ v, render version jobs held ctx = .ok v) ↔
      (jobs.map AnyJob.name).Nodup ∧ ∀ j ∈ jobs, ∃ v, j.contents held ctx = .ok v := by
  have he : (∃ v, render version jobs held ctx = .ok v) ↔
      ∃ es, jobEntries held ctx [] jobs = .ok es := by
    rw [render]
    cases jobEntries held ctx [] jobs <;> simp
  rw [he, exists_jobEntries_iff]
  simp

theorem render_eq_error_iff :
    render version jobs held ctx = .error e ↔ jobEntries held ctx [] jobs = .error e := by
  rw [render]
  cases jobEntries held ctx [] jobs <;> simp

/-- Whatever a document fails for, one of its jobs does, or the name of one occurs before. -/
theorem exists_of_render_eq_error (h : render version jobs held ctx = .error e) :
    ∃ j ∈ jobs, e = .duplicateJob j.name ∨ j.contents held ctx = .error e := by
  obtain ⟨before, j, rest, rfl, -, ⟨-, he⟩ | ⟨-, he⟩⟩ :=
    jobEntries_eq_error_iff.mp (render_eq_error_iff.mp h)
  · exact ⟨j, List.mem_append_right _ List.mem_cons_self, .inl he⟩
  · exact ⟨j, List.mem_append_right _ List.mem_cons_self, .inr he⟩

/-- A document is its jobs, each generated on its own in the context of the whole: there is one
exactly if the names of the jobs are all different and each job can be generated, and it has the
version and, under the names of the jobs in their order, what each of them is generated as. It fails
as the first job that is at fault, for its name if that occurs before and otherwise as the job does;
of a job whose name occurs before, nothing but the name is looked at, and nothing behind it. -/
theorem rendered_iff (version : Double) (jobs : List AnyJob) (held : Held) (ctx : Context) :
    ((∃ v, render version jobs held ctx = .ok v) ↔
      (jobs.map AnyJob.name).Nodup ∧ ∀ j ∈ jobs, ∃ c, j.contents held ctx = .ok c) ∧
    (∀ v, render version jobs held ctx = .ok v ↔
      (jobs.map AnyJob.name).Nodup ∧ ∃ es,
        List.Forall₂ (fun j e => e.1 = j.name ∧ j.contents held ctx = .ok e.2) jobs es ∧
        v = .ofEntries [("version", .float version), ("jobs", .ofEntries es)]) ∧
    (∀ e, render version jobs held ctx = .error e ↔
      ∃ before j rest, jobs = before ++ j :: rest ∧
        (before.map AnyJob.name).Nodup ∧ (∀ k ∈ before, ∃ c, k.contents held ctx = .ok c) ∧
        (j.name ∈ before.map AnyJob.name ∧ e = .duplicateJob j.name ∨
          j.name ∉ before.map AnyJob.name ∧ j.contents held ctx = .error e)) ∧
    ∀ (before : List AnyJob) (j j' : AnyJob) (rest rest' : List AnyJob),
      j.name ∈ before.map AnyJob.name → j'.name = j.name →
      render version (before ++ j :: rest) held ctx =
        render version (before ++ j' :: rest') held ctx := by
  refine ⟨exists_render_iff, fun v => ?_, fun e => ?_, fun before j j' rest rest' hj hn => ?_⟩
  · rw [render_eq_ok_iff]
    simp only [exists_and_left]
  · have hb (before : List AnyJob) : (∃ es, jobEntries held ctx [] before = .ok es) ↔
        (before.map AnyJob.name).Nodup ∧ ∀ k ∈ before, ∃ c, k.contents held ctx = .ok c := by
      rw [exists_jobEntries_iff]
      simp
    rw [render_eq_error_iff, jobEntries_eq_error_iff]
    simp only [hb, List.nil_append, and_assoc]
  · have he (k : AnyJob) (ks : List AnyJob) (hk : k.name ∈ before.map AnyJob.name) :
        jobEntries held ctx [] (before ++ k :: ks) =
          jobEntries held ctx [] before >>= fun _ => .error (.duplicateJob k.name) := by
      rw [jobEntries_append, List.nil_append, jobEntries_of_mem hk]
      rfl
    rw [render, render, he j rest hj, he j' rest' (hn ▸ hj), hn]

/-- The second `lint` cannot be generated, but its name is its fault; `deploy` cannot either, and is
the first at fault where it stands in front. -/
theorem rendered_iff_lint :
    let job (name : String) (executor : Nat) (h : isName name.toList = true) : AnyJob :=
      .plain { name, executor := ⟨executor⟩, steps := [.checkout {}], properties := {}, named := h }
    let lint := job "lint" 0 (by decide)
    let again := job "lint" 1 (by decide)
    let deploy := job "deploy" 1 (by decide)
    let held := Held.ofList [⟨⟨0⟩, .reusable "node" ∅⟩]
    let version := Double.ofDecimal false 21 (-1)
    (∃ v, render version [lint] held .templated = .ok v) ∧
      (∀ c, again.contents held .templated ≠ .ok c) ∧
      render version [lint, again, deploy] held .templated = .error (.duplicateJob "lint") ∧
      render version [deploy, lint, again] held .templated =
        .error (.undefinedExecutor "deploy") := by
  intro job lint again deploy held version
  have hl : ∀ k ∈ [lint], ∃ c, k.contents held .templated = .ok c := by
    simpa using failure?_eq_none_iff.mp (by decide : failure? (lint.contents held .templated) = none)
  have ha : again.contents held .templated = .error (.undefinedExecutor "lint") := by decide
  refine ⟨(rendered_iff version _ held _).1.mpr ⟨by decide, hl⟩, by simp [ha], ?_, ?_⟩
  · exact ((rendered_iff version _ held _).2.2.1 _).mpr
      ⟨[lint], again, [deploy], rfl, by decide, hl, .inl ⟨by decide, rfl⟩⟩
  · exact ((rendered_iff version _ held _).2.2.1 _).mpr
      ⟨[], deploy, [lint, again], rfl, by decide, nofun, .inr ⟨by decide, by decide⟩⟩

/-- The names under which a document lists its jobs, in order. -/
def jobNames (document : Value) : List Value :=
  match document.member? "jobs" with
  | some (.map es) => es.map Prod.fst
  | _ => []

theorem entryKeys_of_jobs {es : List (String × Value)}
    (h : List.Forall₂ (fun j e => e.1 = j.name ∧ j.contents held ctx = .ok e.2) jobs es) :
    entryKeys es = jobs.map AnyJob.name := by
  induction h with
  | nil => rfl
  | cons h _ ih => rw [entryKeys_cons, List.map_cons, ih, h.1]

theorem jobNames_of_render (h : render version jobs held ctx = .ok v) :
    jobNames v = jobs.map fun j => .str j.name := by
  obtain ⟨es, -, hf, rfl⟩ := render_eq_ok_iff.mp h
  have hn : es.map (fun e => Value.str e.1) = (jobs.map AnyJob.name).map .str := by
    rw [← entryKeys_of_jobs hf, entryKeys, List.map_map]
    rfl
  rw [jobNames, Value.member?_ofEntries]
  exact (List.map_map ..).trans (hn.trans (List.map_map ..))

/-- Where nothing is resolved, the context makes no difference: neither to a plain job without
parameters in scope, flattened or not and whatever values are supplied, nor to a parameterized job
that is templated. A templated job fails for its executor alone and a templated document for that or
for a repeated name, so that there is one wherever there is a flattened one, with the same jobs in
the same order. -/
theorem templated_of_flattened (held : Held) :
    (∀ (j : Job) (ctx ctx' : Context), ctx.scope = none → ctx'.scope = none →
      (AnyJob.plain j).contents held ctx = (AnyJob.plain j).contents held ctx' ∧
      (AnyJob.plain j).generate held ctx = (AnyJob.plain j).generate held ctx') ∧
    (∀ (j : ParameterizedJob) (t t' : Context), t.flatten = false → t'.flatten = false →
      (AnyJob.parameterized j).contents held t = (AnyJob.parameterized j).contents held t' ∧
      (AnyJob.parameterized j).generate held t = (AnyJob.parameterized j).generate held t') ∧
    (∀ (j : AnyJob) (t : Context) (e : GenerateError), t.flatten = false →
      (j.contents held t = .error e ↔
        held j.job.executor = none ∧ e = .undefinedExecutor j.name) ∧
      (j.generate held t = .error e ↔
        held j.job.executor = none ∧ e = .undefinedExecutor j.name)) ∧
    (∀ (version : Double) (jobs : List AnyJob) (t : Context) (e : GenerateError),
      t.flatten = false → render version jobs held t = .error e →
      ∃ j ∈ jobs, e = .duplicateJob j.name ∨
        held j.job.executor = none ∧ e = .undefinedExecutor j.name) ∧
    (∀ (version : Double) (jobs : List AnyJob) (ctx t : Context) (v : Value),
      ctx.flatten = true → t.flatten = false → render version jobs held ctx = .ok v →
      ∃ w, render version jobs held t = .ok w ∧ jobNames w = jobNames v) := by
  refine ⟨?_, ?_, ?_, ?_, ?_⟩
  · intro j ctx ctx' h h'
    have hs (c : Context) (hc : c.scope = none) : c.activeScope = none := by
      simp [Context.activeScope, hc]
    have hc : (AnyJob.plain j).contents held ctx = (AnyJob.plain j).contents held ctx' :=
      j.contents_congr_of_inactive held (hs ctx h) (hs ctx' h')
    exact ⟨hc, congrArg (Value.keyed j.name <$> ·) hc⟩
  · intro j t t' h h'
    have hc := (AnyJob.parameterized j).contents_congr_of_templated held h h'
    exact ⟨hc, congrArg (Value.keyed j.job.name <$> ·) hc⟩
  · intro j t e h
    rw [AnyJob.generate_eq_error_iff]
    exact ⟨AnyJob.contents_templated_eq_error_iff h, AnyJob.contents_templated_eq_error_iff h⟩
  · intro version jobs t e h he
    obtain ⟨j, hj, he | he⟩ := exists_of_render_eq_error he
    · exact ⟨j, hj, .inl he⟩
    · exact ⟨j, hj, .inr ((AnyJob.contents_templated_eq_error_iff h).mp he)⟩
  · intro version jobs ctx t v h ht hv
    obtain ⟨hd, hg⟩ := exists_render_iff.mp ⟨v, hv⟩
    have ht' : ∀ j ∈ jobs, ∃ w, j.contents held t = .ok w := by
      intro j hj
      obtain ⟨w, hw⟩ := hg j hj
      rw [AnyJob.exists_contents_templated_iff ht]
      intro he
      rw [AnyJob.contents_eq_undefinedExecutor_iff.mpr ⟨he, rfl⟩] at hw
      cases hw
    obtain ⟨w, hw⟩ := exists_render_iff.mpr ⟨hd, ht'⟩
    exact ⟨w, hw, (jobNames_of_render hw).trans (jobNames_of_render hv).symm⟩

/-- A reference of the plain job has no value anywhere, and the value that the templated context
supplies for `target` is one that `target` would reject. -/
theorem templated_of_flattened_deploy :
    let target : Parameter := ⟨"target", ⟨.string, none, none, none⟩, by decide⟩
    let job (name : String) (h : isName name.toList = true) : Job := {
      name
      executor := ⟨0⟩
      steps := [.run { command := "make << parameters.target >>" }]
      properties := {}
      named := h }
    let lint := job "lint" (by decide)
    let deploy : ParameterizedJob := ⟨job "deploy" (by decide), ⟨[target], by decide⟩⟩
    let gone : AnyJob := .plain { lint with executor := ⟨1⟩ }
    let jobs : List AnyJob := [.plain lint, .parameterized deploy]
    let held := Held.ofList [⟨⟨0⟩, .reusable "node" ∅⟩]
    let ctx := Context.flattened.withOverride "target" (.str "docs")
    let t := Context.templated.withOverride "target" (.int 3)
    let version := Double.ofDecimal false 21 (-1)
    (ctx.flatten = true ∧ t.flatten = false ∧ ctx.scope = none ∧ t.scope = none) ∧
      (AnyJob.plain lint).contents held ctx = (AnyJob.plain lint).contents held t ∧
      (AnyJob.parameterized deploy).contents held t =
        (AnyJob.parameterized deploy).contents held .templated ∧
      gone.contents held t = .error (.undefinedExecutor "lint") ∧
      (∃ e, render version (gone :: jobs) held t = .error e ∧
        ∃ j ∈ gone :: jobs, e = .duplicateJob j.name ∨
          held j.job.executor = none ∧ e = .undefinedExecutor j.name) ∧
      ∃ v w, render version jobs held ctx = .ok v ∧
        render version jobs held t = .ok w ∧ jobNames w = jobNames v := by
  intro target job lint deploy gone jobs held ctx t version
  obtain ⟨hp, hq, hj, he, hr⟩ := templated_of_flattened held
  have hg : gone.contents held t = .error (.undefinedExecutor "lint") :=
    (hj gone t _ rfl).1.mpr ⟨by decide, rfl⟩
  have hf : render version (gone :: jobs) held t =
      .error (.undefinedExecutor "lint") := by
    decide +kernel
  obtain ⟨v, hv⟩ : ∃ v, render version jobs held ctx = .ok v :=
    failure?_eq_none_iff.mp (by decide +kernel)
  obtain ⟨w, hw, hn⟩ := hr _ jobs ctx t v rfl rfl hv
  exact ⟨⟨rfl, rfl, rfl, rfl⟩, (hp lint ctx t rfl rfl).1, (hq deploy t .templated rfl rfl).1, hg,
    ⟨_, hf, he _ _ t _ rfl hf⟩, v, w, hv, hw, hn⟩

end Document

end JobConfig

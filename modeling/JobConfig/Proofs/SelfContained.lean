import JobConfig.Proofs.Flattening
import JobConfig.Proofs.Texts

/-!
# What flattening leaves behind

Resolving a value puts each of its texts, filled in, in place (`Value.Simple.resolve_filledIn`), and
does not look at it again. So a flattened job may refer to parameters still: it is self-contained
exactly when none of the texts that the job writes refers to one after its values are filled in
(`ParameterizedJob.selfContained_iff`). A value that is itself a reference is not resolved in turn
(`ParameterizedJob.not_selfContained_nested`).
-/

namespace JobConfig

namespace Value

/-- No text of a value refers to a parameter. -/
def SelfContained (v : Value) : Prop :=
  ∀ t ∈ v.texts, Template.references t = []

/-! ## Texts filled in -/

/-- What becomes of a text: a value of its own type if the text is one reference. -/
def filledText (value : String → Literal) (text : String) : Value :=
  match Template.soleReference? text with
  | some name => (value name).toValue
  | none => .str (Template.filled (fun name => (value name).text) text)

/-- The texts `us` are the texts `ts` with the values of their references filled in, and `lookup`
has these values. -/
structure FilledIn {ε : Type} (lookup : String → Except ε Literal) (value : String → Literal)
    (ts us : List String) : Prop where
  answered : ∀ t ∈ ts, ∀ name ∈ Template.references t, lookup name = .ok (value name)
  texts_eq : us = ts.flatMap fun t => (filledText value t).texts

variable {ε : Type} {lookup : String → Except ε Literal} {value : String → Literal}

namespace FilledIn

theorem nil : FilledIn lookup value [] [] :=
  ⟨nofun, rfl⟩

theorem append {ts us ts' us' : List String} (h : FilledIn lookup value ts us)
    (h' : FilledIn lookup value ts' us') : FilledIn lookup value (ts ++ ts') (us ++ us') where
  answered t ht := (List.mem_append.mp ht).elim (h.answered t) (h'.answered t)
  texts_eq := by rw [List.flatMap_append, ← h.texts_eq, ← h'.texts_eq]

theorem flatMap {α β : Type} {f : α → List String} {g : β → List String} {as : List α}
    {bs : List β} (h : List.Forall₂ (fun a b => FilledIn lookup value (f a) (g b)) as bs) :
    FilledIn lookup value (as.flatMap f) (bs.flatMap g) := by
  induction h with
  | nil => exact nil
  | cons h _ ih =>
    rw [List.flatMap_cons, List.flatMap_cons]
    exact h.append ih

end FilledIn

theorem resolveText_filledIn (hv : ∀ name l, lookup name = .ok l → value name = l) {text : String}
    {w : Value} (h : resolveText lookup text = .ok w) : FilledIn lookup value [text] w.texts := by
  unfold resolveText at h
  split at h
  · rename_i name hs
    obtain ⟨l, hl, rfl⟩ := map_eq_ok.mp h
    have he := hv name l hl
    refine ⟨?_, ?_⟩
    · simp [Template.references_of_soleReference? hs, he, hl]
    · simp [filledText, hs, he]
  · rename_i hs
    obtain ⟨o, ho, hw⟩ := bind_eq_ok.mp h
    rw [pure_eq_ok_iff] at hw
    subst hw
    have ha : ∀ name given, Literal.text <$> lookup name = .ok given → (value name).text = given := by
      intro name given hg
      obtain ⟨l, hl, rfl⟩ := map_eq_ok.mp hg
      rw [hv name l hl]
    obtain ⟨hn, he⟩ := Template.substitute_eq_ok ha ho
    refine ⟨?_, ?_⟩
    · intro t ht name hm
      rw [List.mem_singleton.mp ht] at hm
      obtain ⟨l, hl, -⟩ := map_eq_ok.mp (hn name hm)
      rw [hl, hv name l hl]
    · simp [filledText, hs, he, texts]

/-- Resolving fills in every text of a value that has no tags. -/
theorem Simple.resolve_filledIn (hv : ∀ name l, lookup name = .ok l → value name = l) {v w : Value}
    (h : v.Simple) (hr : v.resolve lookup = .ok w) : FilledIn lookup value v.texts w.texts := by
  induction h generalizing w with
  | bool b =>
    cases hr
    exact .nil
  | int n =>
    cases hr
    exact .nil
  | str text => exact resolveText_filledIn hv hr
  | @seq items _ ih =>
    rw [resolve, bind_eq_ok] at hr
    obtain ⟨ws, hws, he⟩ := hr
    cases he
    rw [texts_seq, texts_seq]
    -- The hypothesis of the induction is on the items, resolving is on their places in the list.
    have hi := (List.forall₂_and_left _ _).mpr ⟨ih, resolveItems_eq_ok.mp hws⟩
    exact .flatMap (hi.imp fun v w hvw => hvw.1 hvw.2)
  | @map es _ ih =>
    rw [resolve, bind_eq_ok] at hr
    obtain ⟨fs, hfs, he⟩ := hr
    cases he
    rw [texts_map, texts_map, List.flatMap_map]
    have hi := (List.forall₂_and_left _ _).mpr
      ⟨ih, List.forall₂_map_left_iff.mp (resolveEntries_eq_ok.mp hfs)⟩
    exact .flatMap (hi.imp fun e f hef => hef.1 hef.2.2)

/-- A text that is filled in without brackets refers to nothing. -/
theorem selfContained_filledText {text : String} (ht : Template.Tidy text)
    (hv : ∀ name ∈ Template.references text, '<' ∉ (value name).text.toList) :
    (filledText value text).SelfContained := by
  unfold filledText
  split
  · rename_i name hs
    have hn : '<' ∉ (value name).text.toList :=
      hv name (by simp [Template.references_of_soleReference? hs])
    cases hl : value name with
    | bool b => exact nofun
    | int n => exact nofun
    | str u =>
      rw [hl] at hn
      intro t ht
      rw [List.mem_singleton.mp ht]
      exact Template.references_of_unopened (Template.unopened_of_notMem hn)
  · intro t ht'
    rw [List.mem_singleton.mp ht']
    exact Template.references_filled ht hv

end Value

/-! ## Flattened jobs -/

namespace ParameterizedJob

/-- When a job can be flattened, each reference in the texts that it writes has a value. The result
refers to no parameter exactly if none of these texts does after the values are filled in; so it is
if each pair of opening brackets starts a reference and no value has such a bracket. -/
theorem selfContained_iff (j : ParameterizedJob) {held : Held} {ctx : Context} {v : Value}
    (h : ctx.flatten = true) (hv : j.contents held ctx = .ok v) :
    ∃ (base : Value) (value : String → Literal), j.job.contents held .templated = .ok base ∧
      (∀ t ∈ base.texts, ∀ name ∈ Template.references t,
        ctx.lookup j.parameters name = .ok (value name)) ∧
      (v.SelfContained ↔ ∀ t ∈ base.texts, (Value.filledText value t).SelfContained) ∧
      ((∀ t ∈ base.texts, Template.Tidy t ∧
        ∀ name ∈ Template.references t, '<' ∉ (value name).text.toList) → v.SelfContained) := by
  -- Flattening has succeeded, so a name without a value is never asked for and any text will do.
  let value (name : String) : Literal := (ctx.lookup j.parameters name).toOption.getD (.str "")
  have hval : ∀ name l, ctx.lookup j.parameters name = .ok l → value name = l := by
    intro name l hl
    simp only [value, hl]
    rfl
  have hs : (ctx.withScope j.parameters).activeScope = some j.parameters :=
    Context.activeScope_withScope h j.parameters
  have hc : j.job.contents held .templated >>= (ctx.withScope j.parameters).resolveValue = .ok v := by
    rw [← Job.contents_eq _ _ _ rfl]
    exact (AnyJob.contents_eq_inner (.parameterized j) held h).symm.trans hv
  obtain ⟨base, hb, hr⟩ := bind_eq_ok.mp hc
  rw [Context.resolveValue_eq_resolve hs] at hr
  have hf := (Job.simple_contents rfl hb).resolve_filledIn hval hr
  have hiff : v.SelfContained ↔ ∀ t ∈ base.texts, (Value.filledText value t).SelfContained := by
    simp only [Value.SelfContained, hf.texts_eq, List.forall_mem_flatMap]
  refine ⟨base, value, hb, hf.answered, hiff, fun ht => hiff.mpr fun t hm => ?_⟩
  exact Value.selfContained_filledText (ht t hm).1 (ht t hm).2

/-- The command of this job is a reference to `a`, whose default is a reference to `b`: flattened, the
command is a reference to `b`, although `b` has a value. -/
theorem not_selfContained_nested :
    let a : Parameter := ⟨"a", ⟨.string, some (.str "<< parameters.b >>"), none, none⟩, by decide⟩
    let b : Parameter := ⟨"b", ⟨.string, some (.str "x"), none, none⟩, by decide⟩
    let job : Job := {
      name := "build"
      executor := ⟨0⟩
      steps := [.run { command := "<< parameters.a >>" }]
      properties := {}
      named := by decide }
    let j : ParameterizedJob := ⟨job, ⟨[a, b], by decide⟩⟩
    let held := Held.ofList [⟨⟨0⟩, .reusable "node" ∅⟩]
    let v : Value := .ofEntries [
      ("executor", .str "node"),
      ("steps", .seq [.keyed "run" (.ofEntries [("command", .str "<< parameters.b >>")])])]
    j.contents held .flattened = .ok v ∧ ¬ v.SelfContained := by
  intro a b job j held v
  refine ⟨by decide +kernel, fun h => ?_⟩
  have hr : Template.references "<< parameters.b >>" = ["b"] := by decide +kernel
  have ht : "<< parameters.b >>" ∈ v.texts := by decide
  exact absurd (h _ ht) (by rw [hr]; decide)

/-- A job with one reference inside a text, whose value is supplied. -/
theorem selfContained_iff_deploy :
    let target : Parameter := ⟨"target", ⟨.string, none, none, none⟩, by decide⟩
    let job : Job := {
      name := "deploy"
      executor := ⟨0⟩
      steps := [.run { command := "make << parameters.target >>" }]
      properties := {}
      named := by decide }
    let j : ParameterizedJob := ⟨job, ⟨[target], by decide⟩⟩
    let held := Held.ofList [⟨⟨0⟩, .reusable "node" ∅⟩]
    let ctx := Context.flattened.withOverride "target" (.str "docs")
    let v : Value := .ofEntries [
      ("executor", .str "node"),
      ("steps", .seq [.keyed "run" (.ofEntries [("command", .str "make docs")])])]
    (ctx.flatten = true ∧ j.contents held ctx = .ok v) ∧
    ∃ (base : Value) (value : String → Literal), j.job.contents held .templated = .ok base ∧
      (∀ t ∈ base.texts, ∀ name ∈ Template.references t,
        ctx.lookup j.parameters name = .ok (value name)) ∧
      (v.SelfContained ↔ ∀ t ∈ base.texts, (Value.filledText value t).SelfContained) ∧
      ((∀ t ∈ base.texts, Template.Tidy t ∧
        ∀ name ∈ Template.references t, '<' ∉ (value name).text.toList) → v.SelfContained) := by
  intro target job j held ctx v
  have hv : j.contents held ctx = .ok v := by decide +kernel
  exact ⟨⟨rfl, hv⟩, selfContained_iff j rfl hv⟩

end ParameterizedJob

end JobConfig

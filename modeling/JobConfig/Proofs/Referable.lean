import JobConfig.Proofs.Lookup
import JobConfig.Proofs.Occurrences
import JobConfig.Proofs.Resolution

/-!
# Which parameters can be referred to

The name of a parameter may hold every character that is not blank, brackets too. A mention of it
with blanks inside the brackets is one reference to it exactly if the name holds no pair of closing
brackets (`Template.Mention.soleReference?_eq_iff`), and then it is resolved to the parameter's
default, with the default's own type (`Parameter.referable_iff`). A name with such a pair is cut off
at it, and what stands before is looked up instead (`Parameter.not_referable_close`).
-/

namespace JobConfig

namespace Template

/-! ## Pairs of closing brackets -/

theorem close_infix_append_left {cs : List Char} (h : '>' ∉ cs) (ds : List Char) :
    ['>', '>'] <:+: cs ++ ds ↔ ['>', '>'] <:+: ds := by
  induction cs with
  | nil => rfl
  | cons c cs ih =>
    rw [List.mem_cons, not_or] at h
    have hp : ¬ ['>', '>'] <+: c :: (cs ++ ds) := fun hp =>
      h.1 (List.cons_prefix_cons.mp hp).1
    rw [List.cons_append, List.infix_cons_iff, or_iff_right hp, ih h.2]

theorem close_infix_append_right {cs ds : List Char} (h : '>' ∉ ds) (hd : ds ≠ []) :
    ['>', '>'] <:+: cs ++ (ds ++ ['>']) ↔ ['>', '>'] <:+: cs := by
  refine ⟨?_, fun hi => hi.trans (List.infix_append_left ..)⟩
  rintro ⟨s, t, he⟩
  cases ds with
  | nil => exact absurd rfl hd
  | cons d ds =>
    have hdc : d ≠ '>' := fun hd => h (hd ▸ List.mem_cons_self)
    rcases append_eq_append_cons he with ⟨es, hcs, -⟩ | ⟨es, hs, ht⟩
    · exact ⟨s, es, hcs.symm⟩
    · -- The pair would end a beginning of what follows, which has one closing bracket only.
      have hp : d :: es <+: d :: ds ++ ['>'] := ⟨t, (congrArg (d :: ·) ht).symm⟩
      exact absurd ((close_suffix hdc hs).isInfix.trans hp.isInfix) (close_notInfix h)

/-! ## Mentions with blanks -/

namespace Mention

variable (m : Mention)

/-- There are blanks on both sides of the marker and the name. -/
def IsSpaced : Prop :=
  m.left ≠ [] ∧ m.right ≠ []

theorem close_infix_inner_iff {m : Mention} (h : m.IsSpaced) :
    ['>', '>'] <:+: m.inner ++ ['>'] ↔ ['>', '>'] <:+: m.name := by
  have hl : '>' ∉ m.left ++ marker := by
    have hm : '>' ∉ marker := by decide
    simp [close_notMem_left, hm]
  have he : m.inner ++ ['>'] = (m.left ++ marker) ++ (m.name ++ (m.right ++ ['>'])) := by
    simp [inner]
  rw [he, close_infix_append_left hl, close_infix_append_right m.close_notMem_right h.2]

theorem trim_written : trim m.written = m.written := by
  have hb : isBlank '>' = false := by decide
  have hr : trimRight m.written = m.written := by
    have hw : m.written = ('<' :: '<' :: m.inner ++ ['>']) ++ ['>'] := by simp [written]
    rw [hw]
    exact trimRight_of_not_blank hb _
  have hn : ∀ c ∈ ([] : List Char), isBlank c = true := List.forall_mem_nil _
  have ht := trim_blanks_around hn hn (c := '<') (by decide) hr
  rwa [List.nil_append, List.append_nil] at ht

/-- A mention with blanks is one reference to its name exactly if the name does not close it. -/
theorem soleReference?_eq_iff {m : Mention} (h : m.IsSpaced) :
    soleReference? (String.ofList m.written) = some (String.ofList m.name) ↔
      ¬ ['>', '>'] <:+: m.name := by
  rw [← close_infix_inner_iff h, soleReference?, String.toList_ofList, m.trim_written]
  constructor
  · intro hs
    split at hs
    · rename_i w name hp
      obtain ⟨text, inner, after, ht, hsplit, -, hafter⟩ := split_of_pieces hp
      have hnil : after = [] := by
        rw [← written_pieces after, hafter]
        rfl
      obtain ⟨htext, hclose⟩ := splitClose?_eq_some_iff.mp hsplit
      have hinner : m.inner = inner := by
        have he : m.inner ++ ['>', '>'] = inner ++ ['>', '>'] := by
          rw [hnil] at htext
          rw [← htext]
          exact (List.cons_eq_cons.mp (List.cons_eq_cons.mp ht).2).2
        exact List.append_cancel_right he
      exact hinner ▸ hclose
    · cases hs
  · intro hc
    have hp := m.pieces_append hc []
    rw [List.append_nil] at hp
    rw [hp, pieces]

end Mention

end Template

/-! ## Parameters -/

namespace Parameter

open Template

/-- A mention of a parameter, with blanks inside its brackets, is one reference to the parameter
exactly if the parameter's name holds no pair of closing brackets. Then it is resolved to the
parameter's default, whatever else is declared or supplied. -/
theorem referable_iff (p : Parameter) (m : Mention) (hm : m.IsSpaced)
    (hn : m.name = p.name.toList) :
    (soleReference? (String.ofList m.written) = some p.name ↔ ¬ ['>', '>'] <:+: p.name.toList) ∧
    (¬ ['>', '>'] <:+: p.name.toList → ∀ (ctx : Context) (ps : Parameters) (value : Literal),
      ctx.activeScope = some ps → p ∈ ps.items → p.declaration.default = some value →
      ctx.overrides.get? p.name = none →
      ctx.resolveValue (.str (String.ofList m.written)) = .ok value.toValue) := by
  have hsole := Mention.soleReference?_eq_iff hm
  rw [hn, String.ofList_toList] at hsole
  refine ⟨hsole, fun hc ctx ps value hs hp hd ho => ?_⟩
  have hget : ps.get? p.name = some p := Parameters.get?_eq_some_iff.mpr ⟨hp, rfl⟩
  rw [Context.resolveValue_eq_resolve hs, Value.resolve, Value.resolveText, hsole.mpr hc]
  dsimp only
  rw [Context.lookup_of_default hget ho hd, Except.map_ok]

/-- The name of this parameter ends the reference to it early: the parameter has a default, and
there is none of the name `a` that is looked up instead. -/
theorem not_referable_close :
    let p : Parameter := ⟨"a>>b", ⟨.string, some (.str "x"), none, none⟩, by decide⟩
    let m : Mention := ⟨[' '], "a>>b".toList, [' '],
      List.all_eq_true.mp rfl, List.all_eq_true.mp rfl, by decide⟩
    let ctx := Context.flattened.withScope ⟨[p], by decide⟩
    m.IsSpaced ∧ String.ofList m.written = "<< parameters.a>>b >>" ∧
      soleReference? (String.ofList m.written) = none ∧
      ctx.resolveValue (.str (String.ofList m.written)) = .error (.unresolved "a" .undeclared) := by
  intro p m ctx
  exact ⟨⟨List.cons_ne_nil _ _, List.cons_ne_nil _ _⟩, by decide +kernel, by decide +kernel,
    by decide +kernel⟩

/-- Other brackets in a name do no harm, be they closing ones at its end. -/
theorem referable_iff_brackets :
    let p : Parameter := ⟨"<<n>=3>", ⟨.integer, some (.int 3), none, none⟩, by decide⟩
    let m : Mention := ⟨['\t', ' '], "<<n>=3>".toList, [' '],
      List.all_eq_true.mp rfl, List.all_eq_true.mp rfl, by decide⟩
    let ps : Parameters := ⟨[p], by decide⟩
    let ctx := Context.flattened.withScope ps
    (m.IsSpaced ∧ m.name = p.name.toList) ∧ ¬ ['>', '>'] <:+: p.name.toList ∧
      soleReference? (String.ofList m.written) = some "<<n>=3>" ∧
      ctx.resolveValue (.str (String.ofList m.written)) = .ok (.int 3) := by
  intro p m ps ctx
  have hm : m.IsSpaced := ⟨List.cons_ne_nil _ _, List.cons_ne_nil _ _⟩
  have hc : ¬ ['>', '>'] <:+: p.name.toList := by decide +kernel
  obtain ⟨hs, hr⟩ := p.referable_iff m hm rfl
  have hp : p ∈ ps.items := List.mem_singleton_self p
  exact ⟨⟨hm, rfl⟩, hc, hs.mpr hc, hr hc ctx ps (.int 3) rfl hp rfl rfl⟩

end Parameter

end JobConfig

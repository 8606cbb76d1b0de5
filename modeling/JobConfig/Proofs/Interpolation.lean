import JobConfig.Proofs.Occurrences
import JobConfig.Proofs.Texts

/-!
# A text, resolved in two ways

A text can be resolved to a value, where a single reference becomes the value itself, or to a text,
into which each value is interpolated. The first way looks for a single reference in the text without
the blanks at its ends, the second for references in the text as it is; the scan comes to the same in
both (`Template.pieces_of_soleReference?`). So the two ways agree, in their errors too, and a single
reference differs only in that its value is put between the blanks of the text
(`Context.resolve_agrees`).
-/

namespace JobConfig

namespace Template

variable {ε : Type}

/-! ## Blanks around a reference -/

/-- A text with the blanks that another one begins and ends with. -/
def withBlanksOf (text content : String) : String :=
  String.ofList
    (text.toList.takeWhile isBlank ++ content.toList ++ text.toList.rtakeWhile isBlank)

theorem takeWhile_blanks {bs : List Char} (h : ∀ c ∈ bs, isBlank c = true) {c : Char}
    (hc : isBlank c = false) (cs : List Char) : (bs ++ c :: cs).takeWhile isBlank = bs := by
  rw [List.takeWhile_append_of_pos h, List.takeWhile_cons_of_neg (by simp [hc]), List.append_nil]

theorem rtakeWhile_blanks {es : List Char} (h : ∀ c ∈ es, isBlank c = true) {c : Char}
    (hc : isBlank c = false) (cs : List Char) : (cs ++ c :: es).rtakeWhile isBlank = es := by
  have hr : ∀ c ∈ es.reverse, isBlank c = true := fun c hc => h c (List.mem_reverse.mp hc)
  have he : (cs ++ c :: es).reverse = es.reverse ++ c :: cs.reverse := by simp
  rw [List.rtakeWhile, he, takeWhile_blanks hr hc, List.reverse_reverse]

/-- The pieces of a text that is one reference between blanks: these, and the reference. -/
theorem pieces_of_soleReference? {text name : String} (h : soleReference? text = some name) :
    ∃ w, pieces text.toList = (text.toList.takeWhile isBlank).map .plain ++
      .reference w name.toList :: (text.toList.rtakeWhile isBlank).map .plain := by
  unfold soleReference? at h
  split at h
  · rename_i w n hp
    cases h
    obtain ⟨bs, es, hc, hbs, hes⟩ := exists_blanks_around text.toList
    obtain ⟨rest, inner, after, htrim, hs, -, hafter⟩ := split_of_pieces hp
    have hnil : after = [] := by
      rw [← written_pieces after, hafter]
      rfl
    rw [eq_of_splitClose? hs, hnil] at htrim
    -- The reference is the whole trimmed text, so the blanks around it are all that is left.
    have hbs' : text.toList.takeWhile isBlank = bs := by
      rw [hc, htrim, List.append_assoc]
      exact takeWhile_blanks hbs (by decide) _
    have hes' : text.toList.rtakeWhile isBlank = es := by
      have hw : text.toList = (bs ++ '<' :: '<' :: inner ++ ['>']) ++ '>' :: es := by
        rw [hc, htrim]
        simp
      rw [hw]
      exact rtakeWhile_blanks hes (by decide) _
    have hpes : pieces es = es.map .plain := by
      simpa [pieces] using pieces_blanks_append hes []
    refine ⟨w, ?_⟩
    rw [hbs', hes', String.toList_ofList, hc, List.append_assoc, pieces_blanks_append hbs,
      pieces_append_of_sole hp, hpes]
  · cases h

theorem fill_map_plain (answer : String → Except ε String) (cs : List Char) (ps : List Piece) :
    fill answer (cs.map .plain ++ ps) = (cs ++ ·) <$> fill answer ps := by
  induction cs with
  | nil => exact (id_map _).symm
  | cons c cs ih =>
    rw [List.map_cons, List.cons_append, fill, ih]
    cases fill answer ps <;> rfl

/-- A text that is one reference between blanks becomes what answers it, between the same blanks. -/
theorem substitute_of_soleReference? {text name : String} (h : soleReference? text = some name)
    (answer : String → Except ε String) :
    (·.getD text) <$> substitute text answer = withBlanksOf text <$> answer name := by
  obtain ⟨w, hp⟩ := pieces_of_soleReference? h
  have hr : references text ≠ [] := by
    rw [references_of_soleReference? h]
    exact List.cons_ne_nil _ _
  have hplain := fill_map_plain answer (text.toList.rtakeWhile isBlank) []
  rw [List.append_nil, fill] at hplain
  rw [substitute, if_neg hr, hp, fill_map_plain, fill, hplain, String.ofList_toList]
  cases answer name with
  | error e => rfl
  | ok given => simp [withBlanksOf]

end Template

namespace Context

open Template

theorem resolve_eq_substitute {ctx : Context} {ps : Parameters} (h : ctx.activeScope = some ps)
    (text : String) :
    ctx.resolve text =
      (·.getD text) <$> substitute text fun name => Literal.text <$> ctx.lookup ps name := by
  simp only [resolve, h]
  rfl

/-- A single reference is resolved to its value. -/
theorem resolveValue_of_soleReference? {ctx : Context} {ps : Parameters} {text name : String}
    (h : ctx.activeScope = some ps) (hs : soleReference? text = some name) :
    ctx.resolveValue (.str text) = Literal.toValue <$> ctx.lookup ps name := by
  rw [resolveValue_eq_resolve h, Value.resolve, Value.resolveText, hs]

/-- A text that is not a single reference stays a text. -/
theorem resolveValue_of_not_sole {ctx : Context} {ps : Parameters} {text : String}
    (h : ctx.activeScope = some ps) (hs : soleReference? text = none) :
    ctx.resolveValue (.str text) = Value.str <$> ctx.resolve text := by
  rw [resolveValue_eq_resolve h, Value.resolve, Value.resolveText, hs, resolve_eq_substitute h,
    Functor.map_map]
  rfl

theorem resolve_of_soleReference? {ctx : Context} {ps : Parameters} {text name : String}
    (h : ctx.activeScope = some ps) (hs : soleReference? text = some name) :
    ctx.resolve text = (fun l => withBlanksOf text l.text) <$> ctx.lookup ps name := by
  rw [resolve_eq_substitute h, substitute_of_soleReference? hs, Functor.map_map]

/-- The two ways to resolve a text agree: they fail alike, for a text that is not a single reference
they give the same text, and a single reference is resolved to its value in the one way, and in the
other to the value's text between the blanks that the reference stands between. -/
theorem resolve_agrees {ctx : Context} {ps : Parameters} (h : ctx.activeScope = some ps)
    (text : String) :
    failure? (ctx.resolveValue (.str text)) = failure? (ctx.resolve text) ∧
    (soleReference? text = none → ctx.resolveValue (.str text) = Value.str <$> ctx.resolve text) ∧
    ∀ name, soleReference? text = some name →
      ctx.resolveValue (.str text) = Literal.toValue <$> ctx.lookup ps name ∧
      ctx.resolve text = (fun l => withBlanksOf text l.text) <$> ctx.lookup ps name := by
  refine ⟨?_, resolveValue_of_not_sole h, fun name hs =>
    ⟨resolveValue_of_soleReference? h hs, resolve_of_soleReference? h hs⟩⟩
  cases hs : soleReference? text with
  | none => rw [resolveValue_of_not_sole h hs, failure?_map]
  | some name =>
    rw [resolveValue_of_soleReference? h hs, resolve_of_soleReference? h hs, failure?_map,
      failure?_map]

/-- A reference between a tab and two unusual blanks, to a parameter that is an integer. -/
theorem resolve_agrees_retries :
    let p : Parameter := ⟨"retries", ⟨.integer, some (.int 3), none, none⟩, by decide⟩
    let ps : Parameters := ⟨[p], by decide⟩
    let ctx := (Context.flattened.withOverride "retries" (.int (-5))).withScope ps
    let text := "\t<<parameters.retries >>\u2003\u00a0"
    ctx.activeScope = some ps ∧ soleReference? text = some "retries" ∧
      ctx.resolveValue (.str text) = .ok (.int (-5)) ∧
      ctx.resolve text = .ok "\t-5\u2003\u00a0" := by
  intro p ps ctx text
  have hs : soleReference? text = some "retries" := by decide +kernel
  have hscope : ctx.activeScope = some ps := rfl
  obtain ⟨-, -, hsome⟩ := resolve_agrees hscope text
  obtain ⟨hv, ht⟩ := hsome "retries" hs
  have hl : ctx.lookup ps "retries" = .ok (.int (-5)) := by decide +kernel
  rw [hl] at hv ht
  exact ⟨hscope, hs, hv, ht.trans (by decide +kernel)⟩

end Context

end JobConfig

import JobConfig.Proofs.Outcome
import JobConfig.Template
import Mathlib.Data.List.Chain

/-!
# Filling texts in

What becomes of a text whose references are replaced: the answers stand between the plain
characters, and nothing is read again (`fill_eq_ok`, `substitute_eq_ok`). So the text that comes out
may refer to parameters anew. It does not if no two opening brackets in it stand side by side
(`references_of_unopened`), and none do if the values have no such bracket and each pair of them in
the text started a reference (`unopened_filled`).

`references_of_soleReference?` is the agreement of the two ways to look for references: a text that
is one reference, blanks at its ends apart, has this reference and no other.
-/

namespace JobConfig.Template

/-! ## Answers -/

/-- The characters of a piece, the value in place of a reference. -/
def Piece.filled (value : String → String) : Piece → List Char
  | .plain c => [c]
  | .reference _ name => (value (String.ofList name)).toList

@[simp] theorem names_plain (c : Char) (ps : List Piece) :
    (.plain c :: ps).filterMap Piece.name? = ps.filterMap Piece.name? := rfl

@[simp] theorem names_reference (w name : List Char) (ps : List Piece) :
    (.reference w name :: ps).filterMap Piece.name? =
      String.ofList name :: ps.filterMap Piece.name? := rfl

/-- Filling in succeeds exactly when there is an answer to each reference, and puts them in place. -/
theorem fill_eq_ok {ε : Type} {answer : String → Except ε String} {value : String → String}
    (hv : ∀ name given, answer name = .ok given → value name = given) {ps : List Piece}
    {cs : List Char} :
    fill answer ps = .ok cs ↔ (∀ name ∈ ps.filterMap Piece.name?, answer name = .ok (value name)) ∧
      cs = ps.flatMap (Piece.filled value) := by
  induction ps generalizing cs with
  | nil =>
    simp only [fill, pure_eq_ok_iff]
    simp [eq_comm]
  | cons p ps ih =>
    cases p with
    | plain c =>
      simp only [fill, bind_eq_ok, ih, pure_eq_ok_iff, names_plain, List.flatMap_cons, Piece.filled]
      constructor
      · rintro ⟨_, ⟨ha, rfl⟩, rfl⟩
        exact ⟨ha, rfl⟩
      · rintro ⟨ha, rfl⟩
        exact ⟨_, ⟨ha, rfl⟩, rfl⟩
    | reference w name =>
      simp only [fill, bind_eq_ok, ih, pure_eq_ok_iff, names_reference, List.forall_mem_cons,
        List.flatMap_cons, Piece.filled]
      constructor
      · rintro ⟨given, hg, _, ⟨ha, rfl⟩, rfl⟩
        have he := hv _ _ hg
        exact ⟨⟨he ▸ hg, ha⟩, by rw [he]⟩
      · rintro ⟨⟨hg, ha⟩, rfl⟩
        exact ⟨_, hg, _, ⟨ha, rfl⟩, rfl⟩

/-- The text with the values in place of its references. -/
def filled (value : String → String) (text : String) : String :=
  String.ofList ((pieces text.toList).flatMap (Piece.filled value))

/-- Nothing changes in a text that refers to nothing. -/
theorem filled_of_references_eq_nil (value : String → String) {text : String}
    (h : references text = []) : filled value text = text := by
  have hp : ∀ p ∈ pieces text.toList, Piece.filled value p = p.written := fun p hp => by
    cases p with
    | plain c => rfl
    | reference w name =>
      exact absurd (h ▸ List.mem_filterMap.mpr ⟨_, hp, rfl⟩) (List.not_mem_nil (a := String.ofList name))
  rw [filled, List.flatMap_congr hp, written_pieces, String.ofList_toList]

/-- Substituting succeeds exactly when there is an answer to each reference, and fills them in. -/
theorem substitute_eq_ok {ε : Type} {answer : String → Except ε String} {value : String → String}
    (hv : ∀ name given, answer name = .ok given → value name = given) {text : String}
    {o : Option String} (h : substitute text answer = .ok o) :
    (∀ name ∈ references text, answer name = .ok (value name)) ∧ o.getD text = filled value text := by
  unfold substitute at h
  split at h
  · rename_i hr
    rw [pure_eq_ok_iff] at h
    subst h
    rw [filled_of_references_eq_nil value hr, hr]
    exact ⟨fun _ hn => absurd hn List.not_mem_nil, rfl⟩
  · obtain ⟨cs, hc, he⟩ := bind_eq_ok.mp h
    rw [pure_eq_ok_iff] at he
    obtain ⟨ha, rfl⟩ := (fill_eq_ok hv).mp hc
    subst he
    exact ⟨ha, rfl⟩

/-! ## Texts without brackets -/

/-- No two opening brackets stand side by side. -/
def Unopened (cs : List Char) : Prop :=
  cs.IsChain fun a b => ¬(a = '<' ∧ b = '<')

/-- Each pair of opening brackets in a text starts a reference. -/
def Tidy (text : String) : Prop :=
  (pieces text.toList).IsChain fun p q => ¬(p = .plain '<' ∧ q = .plain '<')

theorem pieces_cons_of_ne {c : Char} (h : c ≠ '<') (rest : List Char) :
    pieces (c :: rest) = .plain c :: pieces rest := by
  rw [pieces]
  intro rest' hc
  exact absurd hc h

theorem pieces_of_unopened {cs : List Char} (h : Unopened cs) : pieces cs = cs.map .plain := by
  fun_induction pieces cs with
  | case1 => rfl
  | case2 rest piece after hlt ho ih => exact absurd ⟨rfl, rfl⟩ (List.isChain_cons_cons.mp h).1
  | case3 rest ho ih => exact absurd ⟨rfl, rfl⟩ (List.isChain_cons_cons.mp h).1
  | case4 c rest hne ih => rw [ih (List.IsChain.tail h), List.map_cons]

/-- A text without a pair of opening brackets refers to nothing. -/
theorem references_of_unopened {text : String} (h : Unopened text.toList) :
    references text = [] := by
  rw [references, pieces_of_unopened h, List.filterMap_map]
  exact List.filterMap_eq_nil_iff.mpr fun _ _ => rfl

theorem unopened_of_notMem {cs : List Char} (h : '<' ∉ cs) : Unopened cs := by
  have hp : cs.Pairwise fun a b => ¬(a = '<' ∧ b = '<') :=
    List.pairwise_of_forall_mem_list fun a ha _ _ he => h (he.1 ▸ ha)
  exact hp.isChain

/-- A tidy text stays without pairs of opening brackets when values without such are filled in. -/
theorem unopened_filled {value : String → String} {cs : List Char}
    (ht : (pieces cs).IsChain fun p q => ¬(p = .plain '<' ∧ q = .plain '<'))
    (hv : ∀ name ∈ (pieces cs).filterMap Piece.name?, '<' ∉ (value name).toList) :
    Unopened ((pieces cs).flatMap (Piece.filled value)) := by
  fun_induction pieces cs with
  | case1 => exact .nil
  | case2 rest piece after hlt ho ih =>
    obtain ⟨inner, name, -, -, rfl⟩ := opened?_eq_some_iff.mp ho
    rw [names_reference, List.forall_mem_cons] at hv
    refine List.isChain_append.mpr ⟨unopened_of_notMem hv.1, ih ht.tail hv.2, ?_⟩
    exact fun a ha _ _ he => hv.1 (he.1 ▸ List.mem_of_mem_getLast? ha)
  | case3 rest ho ih => exact absurd ⟨rfl, rfl⟩ (List.isChain_cons_cons.mp ht).1
  | case4 c rest hne ih =>
    refine List.isChain_cons.mpr ⟨?_, ih ht.tail hv⟩
    -- A single bracket before a reference would have made a pair with it.
    rintro d hd ⟨rfl, rfl⟩
    cases rest with
    | nil => simp [pieces] at hd
    | cons d rest =>
      have hd' : d ≠ '<' := fun he => hne rest rfl (he ▸ rfl)
      rw [pieces_cons_of_ne hd'] at hd
      exact hd' (Option.some.inj hd)

/-- Values without brackets, filled into a tidy text, make no new references. -/
theorem references_filled {value : String → String} {text : String} (ht : Tidy text)
    (hv : ∀ name ∈ references text, '<' ∉ (value name).toList) :
    references (filled value text) = [] :=
  references_of_unopened (by rw [filled, String.toList_ofList]; exact unopened_filled ht hv)

/-! ## Single references -/

theorem splitClose?_append {text inner after : List Char}
    (h : splitClose? text = some (inner, after)) (more : List Char) :
    splitClose? (text ++ more) = some (inner, after ++ more) := by
  fun_induction splitClose? text generalizing inner with
  | case1 => cases h
  | case2 after' =>
    cases h
    rfl
  | case3 c rest hne ih =>
    obtain ⟨⟨i, a⟩, hs, he⟩ := Option.map_eq_some_iff.mp h
    cases he
    rw [List.cons_append, splitClose?, ih hs]
    · rfl
    · cases rest with
      | nil => cases hs
      | cons d rest =>
        intro after' hc hr
        exact hne rest hc (by rw [List.cons_append, List.cons_eq_cons] at hr; rw [hr.1])

/-- A text that opens with a reference goes on with the pieces behind it. -/
theorem pieces_of_split {text inner after name : List Char}
    (hs : splitClose? text = some (inner, after)) (hn : innerName? inner = some name) :
    pieces ('<' :: '<' :: text) =
      .reference ('<' :: '<' :: inner ++ ['>', '>']) name :: pieces after := by
  have ho : opened? text = some (_, ⟨after, length_lt_of_splitClose? hs⟩) :=
    opened?_eq_some_iff.mpr ⟨inner, name, hs, hn, rfl⟩
  rw [pieces, ho]

theorem split_of_pieces {cs w name : List Char} {ps : List Piece}
    (h : pieces cs = .reference w name :: ps) :
    ∃ text inner after, cs = '<' :: '<' :: text ∧ splitClose? text = some (inner, after) ∧
      innerName? inner = some name ∧ pieces after = ps := by
  fun_cases pieces cs with
  | case1 => simp [pieces] at h
  | case2 rest piece after hlt ho =>
    rw [pieces, ho, List.cons_eq_cons] at h
    obtain ⟨inner, name', hs, hn, rfl⟩ := opened?_eq_some_iff.mp ho
    cases h.1
    exact ⟨rest, inner, after, rfl, hs, hn, h.2⟩
  | case3 rest ho => simp [pieces, ho] at h
  | case4 c rest hne =>
    rw [pieces] at h
    · cases (List.cons_eq_cons.mp h).1
    · exact hne

/-- What stands behind a text that is one reference comes after this reference. -/
theorem pieces_append_of_sole {cs w name : List Char} (h : pieces cs = [.reference w name])
    (more : List Char) : pieces (cs ++ more) = .reference w name :: pieces more := by
  obtain ⟨text, inner, after, rfl, hs, hn, ha⟩ := split_of_pieces h
  have hnil : after = [] := by
    rw [← written_pieces after, ha]
    rfl
  subst hnil
  rw [pieces_of_split hs hn, ha] at h
  cases h
  rw [List.cons_append, List.cons_append, pieces_of_split (splitClose?_append hs more) hn]
  rfl

/-! ## Blanks around a reference -/

theorem ne_bracket_of_isBlank {c : Char} (h : isBlank c = true) : c ≠ '<' := by
  rintro rfl
  exact absurd h (by decide)

theorem pieces_blanks_append {bs : List Char} (h : ∀ c ∈ bs, isBlank c = true) (cs : List Char) :
    pieces (bs ++ cs) = bs.map .plain ++ pieces cs := by
  induction bs with
  | nil => rfl
  | cons b bs ih =>
    rw [List.forall_mem_cons] at h
    rw [List.cons_append, pieces_cons_of_ne (ne_bracket_of_isBlank h.1), ih h.2]
    rfl

/-- A text is what trimming leaves of it, between blanks. -/
theorem exists_blanks_around (cs : List Char) :
    ∃ bs es, cs = bs ++ trim cs ++ es ∧ (∀ c ∈ bs, isBlank c = true) ∧
      ∀ c ∈ es, isBlank c = true := by
  have hr : trimLeft cs = trim cs ++ ((trimLeft cs).reverse.takeWhile isBlank).reverse := by
    rw [trim, trimRight, ← List.reverse_append, List.takeWhile_append_dropWhile,
      List.reverse_reverse]
  refine ⟨cs.takeWhile isBlank, ((trimLeft cs).reverse.takeWhile isBlank).reverse, ?_, ?_, ?_⟩
  · rw [List.append_assoc, ← hr, trimLeft, List.takeWhile_append_dropWhile]
  · exact List.all_eq_true.mp List.all_takeWhile
  · exact fun c hc => List.all_eq_true.mp List.all_takeWhile c (List.mem_reverse.mp hc)

/-- A text that is one reference between blanks refers to what this one refers to. -/
theorem references_of_soleReference? {text name : String} (h : soleReference? text = some name) :
    references text = [name] := by
  unfold soleReference? at h
  split at h
  · rename_i w n hp
    cases h
    obtain ⟨bs, es, hc, hbs, hes⟩ := exists_blanks_around text.toList
    have hn (cs : List Char) : (cs.map Piece.plain).filterMap Piece.name? = [] := by
      simp [List.filterMap_map, Function.comp_def, Piece.name?]
    have he : pieces es = es.map .plain := by
      simpa [pieces] using pieces_blanks_append hes []
    rw [references, hc, List.append_assoc, pieces_blanks_append hbs, pieces_append_of_sole hp, he,
      List.filterMap_append, names_reference, hn, hn]
    rfl
  · cases h

end JobConfig.Template

import JobConfig.Proofs.Spans
import JobConfig.Proofs.Work

/-!
# Asking for answers

Substituting asks for an answer to each reference of a text. Who is asked may fail, and may answer
by what has been asked before: asking is work on a state. In whatever way answers are found,
substituting is first to ask for each name in order, and then to put the answers in place
(`substitute_eq_mapM`). So as long as all goes well there is one answer for each occurrence of a
name, and otherwise nothing is asked for behind the first name that has none
(`Answered.exists_or_refused`).

The answers stand in the spans of the references, and what is between the spans is sliced out of the
text (`replaceSpans`). `substitute_asks` has all of it: the names that are asked for, the error, and
the bytes of the outcome.
-/

namespace JobConfig.Template

/-! ## Answers in place -/

/-- The text of some pieces with a list of answers in place of the references, one for each of them
in order. -/
def fillWith : List Piece → List String → List Char
  | [], _ => []
  | .plain c :: ps, given => c :: fillWith ps given
  | .reference _ _ :: ps, [] => fillWith ps []
  | .reference _ _ :: ps, a :: given => a.toList ++ fillWith ps given

section Lawful

variable {m : Type → Type} [Monad m] [LawfulMonad m]

/-- Filling in asks for one name after the other, and for nothing else. -/
theorem fill_eq_mapM (answer : String → m String) (ps : List Piece) :
    fill answer ps = fillWith ps <$> (ps.filterMap Piece.name?).mapM answer := by
  induction ps with
  | nil => simp [fill, fillWith]
  | cons p ps ih =>
    cases p with
    | plain c => simp [fill, fillWith, ih]
    | reference w name => simp [fill, fillWith, ih]

theorem substitute_eq_mapM (answer : String → m String) (text : String) :
    substitute text answer = (fun given =>
      if references text = [] then none
      else some (String.ofList (fillWith (pieces text.toList) given))) <$>
        (references text).mapM answer := by
  unfold substitute
  split
  · rename_i h
    simp [h]
  · rw [fill_eq_mapM, references]
    simp

end Lawful

/-- The text from a position on with answers in place of the spans, one for each: the slices in front
of, between and behind the spans are those of the text. -/
def replaceSpans (text : String) (last : Nat) : List Placeholder → List String → Option String
  | [], [] => slice? text last text.utf8ByteSize
  | p :: ps, a :: given => do
    let plain ← slice? text last p.start
    let rest ← replaceSpans text p.stop ps given
    return plain ++ a ++ rest
  | _, _ => none

/-- With an answer for each span no slice fails: what stands between the spans are the plain
characters `bs` that have been passed since the last one, and those of the pieces. -/
theorem replaceSpans_eq {text : String} {as bs : List Char} {ps : List Piece} {given : List String}
    (h : text.toList = as ++ bs ++ ps.flatMap Piece.written)
    (hg : given.length = (ps.filterMap Piece.name?).length) :
    replaceSpans text (byteLength as) (placeholdersFrom (byteLength (as ++ bs)) ps) given =
      some (String.ofList (bs ++ fillWith ps given)) := by
  induction ps generalizing as bs given with
  | nil =>
    rw [List.flatMap_nil, List.append_nil] at h
    rw [List.eq_nil_of_length_eq_zero hg, placeholdersFrom, replaceSpans, slice?_rest h, fillWith,
      List.append_nil]
  | cons p ps ih =>
    rw [List.flatMap_cons] at h
    cases p with
    | plain c =>
      have hc : text.toList = as ++ (bs ++ [c]) ++ ps.flatMap Piece.written := by
        rw [h, Piece.written]
        simp
      rw [placeholdersFrom_plain_cons, ih hc hg, fillWith, List.append_assoc, List.singleton_append]
    | reference w name =>
      have hw : text.toList = as ++ bs ++ w ++ [] ++ ps.flatMap Piece.written := by
        rw [h, Piece.written]
        simp
      cases given with
      | nil => cases hg
      | cons a given =>
        have ih := ih hw (Nat.succ.inj hg)
        rw [List.append_nil] at ih
        rw [placeholdersFrom_reference, replaceSpans, slice?_eq_some h, ih, fillWith]
        simp [String.append_assoc]

/-! ## Who is asked -/

variable {σ ε : Type}

/-- The answers to some names, each found in the state that the one before has left. -/
inductive Answered (ask : String → Work σ ε String) : σ → List String → List String → σ → Prop
  | nil (s : σ) : Answered ask s [] [] s
  | cons {s s' s'' : σ} {name a : String} {names given : List String}
      (first : (ask name).on s = (.ok a, s')) (rest : Answered ask s' names given s'') :
      Answered ask s (name :: names) (a :: given) s''

/-- Who is asked, and a record of the names asked for. -/
def recorded (ask : String → Work σ ε String) (name : String) :
    Work (σ × List String) ε String :=
  ExceptT.mk fun s => (((ask name).on s.1).1, ((ask name).on s.1).2, s.2 ++ [name])

theorem on_recorded (ask : String → Work σ ε String) (name : String) (s : σ)
    (asked : List String) : (recorded ask name).on (s, asked) =
      (((ask name).on s).1, ((ask name).on s).2, asked ++ [name]) := rfl

namespace Answered

variable {ask : String → Work σ ε String} {s s' s'' : σ} {names given : List String}

theorem length_eq (h : Answered ask s names given s') : given.length = names.length := by
  induction h with
  | nil => rfl
  | cons _ _ ih => rw [List.length_cons, List.length_cons, ih]

/-- All names have an answer, or there is a first one that has none. -/
theorem exists_or_refused (ask : String → Work σ ε String) (s : σ) (names : List String) :
    (∃ given s', Answered ask s names given s') ∨
    ∃ before name after given s' e s'', names = before ++ name :: after ∧
      Answered ask s before given s' ∧ (ask name).on s' = (.error e, s'') := by
  induction names generalizing s with
  | nil => exact .inl ⟨[], s, .nil s⟩
  | cons name names ih =>
    rcases ha : (ask name).on s with ⟨_ | a, s'⟩
    · exact .inr ⟨[], name, names, [], s, _, s', rfl, .nil s, ha⟩
    · rcases ih s' with ⟨given, s'', h⟩ | ⟨before, other, after, given, t, e, t', rfl, h, he⟩
      · exact .inl ⟨a :: given, s'', .cons ha h⟩
      · exact .inr ⟨name :: before, other, after, a :: given, t, e, t', rfl, .cons ha h, he⟩

/-- When all names have an answer, each of them is asked for once. -/
theorem on_mapM (h : Answered ask s names given s') (asked : List String) :
    Work.on (names.mapM (recorded ask)) (s, asked) = (.ok given, s', asked ++ names) := by
  induction h generalizing asked with
  | nil s =>
    rw [List.mapM_nil, List.append_nil]
    rfl
  | cons first _ ih =>
    rw [List.mapM_cons, Work.on_bind, on_recorded, first]
    dsimp only
    rw [Work.on_bind, ih, List.append_assoc]
    rfl

/-- Nothing is asked for behind a name that has no answer. -/
theorem on_mapM_refused (h : Answered ask s names given s') {name : String} {e : ε}
    (he : (ask name).on s' = (.error e, s'')) (after asked : List String) :
    Work.on ((names ++ name :: after).mapM (recorded ask)) (s, asked) =
      (.error e, s'', asked ++ (names ++ [name])) := by
  rw [List.mapM_append, Work.on_bind, h.on_mapM, List.mapM_cons]
  dsimp only
  rw [Work.on_bind, Work.on_bind, on_recorded, he, List.append_assoc]

end Answered

/-! ## Substituting -/

/-- Substituting asks for the name of each reference, from left to right. If each has an answer, the
outcome is the text with the answers in the spans of the references and its own bytes between them;
there is no new text exactly if there is no reference. Otherwise the first name without an answer is
the last one that is asked for, and its error is the outcome. -/
theorem substitute_asks (text : String) (ask : String → Work σ ε String) (s : σ) :
    (placeholders text).map Placeholder.name = references text ∧
    ((∃ given s' out, Answered ask s (references text) given s' ∧
        replaceSpans text 0 (placeholders text) given = some out ∧
        Work.on (substitute text (recorded ask)) (s, []) =
          (.ok (if placeholders text = [] then none else some out), s', references text)) ∨
      ∃ before name after given s' e s'', references text = before ++ name :: after ∧
        Answered ask s before given s' ∧ (ask name).on s' = (.error e, s'') ∧
        Work.on (substitute text (recorded ask)) (s, []) = (.error e, s'', before ++ [name])) := by
  have hnames := map_name_placeholders text
  have hnone : references text = [] ↔ placeholders text = [] := by
    rw [← hnames, List.map_eq_nil_iff]
  refine ⟨hnames, ?_⟩
  rw [substitute_eq_mapM, ← bind_pure_comp, Work.on_bind]
  rcases Answered.exists_or_refused ask s (references text) with
    ⟨given, s', h⟩ | ⟨before, name, after, given, s', e, s'', hr, h, he⟩
  · left
    have htext : text.toList = [] ++ [] ++ (pieces text.toList).flatMap Piece.written :=
      (written_pieces text.toList).symm
    refine ⟨given, s', _, h, replaceSpans_eq htext h.length_eq, ?_⟩
    rw [h.on_mapM]
    simp only [hnone]
    rfl
  · right
    refine ⟨before, name, after, given, s', e, s'', hr, h, he, ?_⟩
    rw [hr, h.on_mapM_refused he]
    rfl

/-- One name, and a new answer each time, the first one written like a reference. -/
example :
    let ask (name : String) : Work (List String) Unit String := do
      let answer :: answers ← get | throw ()
      set answers
      return name ++ answer
    Work.on (substitute "<<parameters.a>>é<<parameters.a>>" (recorded ask))
      (["<<parameters.b>>", "2"], []) = (.ok (some "a<<parameters.b>>éa2"), [], ["a", "a"]) := by
  decide +kernel

end JobConfig.Template

import JobConfig.Text.Blank

/-!
# References in text

A text refers to a parameter by `<< parameters.NAME >>`, blanks inside the brackets being optional.
Other bracketed expressions are plain text.

`pieces` cuts a text into plain characters and references, from left to right: an opening bracket
starts a reference if what follows, up to the next closing bracket, names a parameter, and
otherwise it is plain and the search goes on behind it. The pieces put together are the text again
(`written_pieces`). `placeholders` gives the references with their byte spans, `soleReference?` the
name when a text is nothing else but one reference, and `substitute` puts answers in place of the
references, asking once for each, from left to right.
-/

namespace JobConfig.Template

/-! ## Pieces -/

/-- A part of a text: one plain character, or a reference as it is written and its name. -/
inductive Piece where
  | plain (c : Char)
  | reference (written name : List Char)
deriving DecidableEq, Repr

/-- The characters of a piece. -/
def Piece.written : Piece → List Char
  | .plain c => [c]
  | .reference written _ => written

/-- The name that a piece refers to. -/
def Piece.name? : Piece → Option String
  | .plain _ => none
  | .reference _ name => some (String.ofList name)

/-- The text before the first closing bracket, and the text behind it. -/
def splitClose? : List Char → Option (List Char × List Char)
  | [] => none
  | '>' :: '>' :: after => some ([], after)
  | c :: rest => (splitClose? rest).map fun (inner, after) => (c :: inner, after)

/-- What a reference's name is marked with. -/
def marker : List Char := "parameters.".toList

/-- The name that the inside of a pair of brackets refers to. -/
def innerName? (inner : List Char) : Option (List Char) :=
  let content := trim inner
  if marker.isPrefixOf content then
    let name := content.drop marker.length
    if isName name then some name else none
  else none

theorem eq_of_splitClose? {text inner after : List Char}
    (h : splitClose? text = some (inner, after)) : text = inner ++ '>' :: '>' :: after := by
  fun_induction splitClose? text generalizing inner with
  | case1 => cases h
  | case2 after' =>
    cases h
    rfl
  | case3 c rest _ ih =>
    obtain ⟨⟨i, a⟩, hs, he⟩ := Option.map_eq_some_iff.mp h
    cases he
    rw [ih hs, List.cons_append]

theorem length_lt_of_splitClose? {text inner after : List Char}
    (h : splitClose? text = some (inner, after)) : after.length < text.length := by
  rw [eq_of_splitClose? h]
  simp
  omega

/-- The reference that an opening bracket before `text` starts, and the text behind it. -/
def opened? (text : List Char) :
    Option (Piece × { after : List Char // after.length < text.length }) :=
  match h : splitClose? text with
  | none => none
  | some (inner, after) =>
    (innerName? inner).map fun name =>
      (.reference ('<' :: '<' :: inner ++ ['>', '>']) name, ⟨after, length_lt_of_splitClose? h⟩)

/-- The pieces of a text. -/
def pieces : List Char → List Piece
  | [] => []
  | '<' :: '<' :: rest =>
    match opened? rest with
    | some (piece, ⟨after, _⟩) => piece :: pieces after
    | none => .plain '<' :: .plain '<' :: pieces rest
  | c :: rest => .plain c :: pieces rest
termination_by text => text.length
decreasing_by all_goals (simp only [List.length_cons]; omega)

theorem opened?_eq_some_iff {text after : List Char} {piece : Piece}
    {h : after.length < text.length} :
    opened? text = some (piece, ⟨after, h⟩) ↔
      ∃ inner name, splitClose? text = some (inner, after) ∧ innerName? inner = some name ∧
        piece = .reference ('<' :: '<' :: inner ++ ['>', '>']) name := by
  unfold opened?
  split
  · rename_i hs
    simp [hs]
  · rename_i inner after' hs
    rw [Option.map_eq_some_iff]
    constructor
    · rintro ⟨name, hn, he⟩
      cases he
      exact ⟨inner, name, hs, hn, rfl⟩
    · rintro ⟨inner', name, hs', hn, rfl⟩
      cases hs.symm.trans hs'
      exact ⟨name, hn, rfl⟩

/-- Nothing of the text is lost or added. -/
theorem written_pieces (text : List Char) : (pieces text).flatMap Piece.written = text := by
  fun_induction pieces text with
  | case1 => rfl
  | case2 rest piece after h ho ih =>
    obtain ⟨inner, name, hs, _, rfl⟩ := opened?_eq_some_iff.mp ho
    simp [Piece.written, ih, eq_of_splitClose? hs]
  | case3 rest ho ih => simp [Piece.written, ih]
  | case4 c rest _ ih => simp [Piece.written, ih]

/-! ## References -/

/-- A reference and where it stands, in bytes of the text's encoding. -/
structure Placeholder where
  start : Nat
  stop : Nat
  name : String
deriving DecidableEq, Repr

/-- The number of bytes of some characters. -/
def byteLength (cs : List Char) : Nat :=
  cs.foldr (fun c n => c.utf8Size + n) 0

/-- The references among the pieces that start at a byte. -/
def placeholdersFrom (start : Nat) : List Piece → List Placeholder
  | [] => []
  | p :: rest =>
    let stop := start + byteLength p.written
    match p.name? with
    | some name => ⟨start, stop, name⟩ :: placeholdersFrom stop rest
    | none => placeholdersFrom stop rest

/-- The references of a text, in order. -/
def placeholders (text : String) : List Placeholder :=
  placeholdersFrom 0 (pieces text.toList)

/-- The names that a text refers to, in order. -/
def references (text : String) : List String :=
  (pieces text.toList).filterMap Piece.name?

/-- The name a text refers to if, blanks at its ends apart, it is one reference and no more. -/
def soleReference? (text : String) : Option String :=
  match pieces (trim text.toList) with
  | [.reference _ name] => some (String.ofList name)
  | _ => none

/-! ## Substitution -/

/-- The text of some pieces with the answers in place of the references. -/
def fill {m : Type → Type} [Monad m] (answer : String → m String) : List Piece → m (List Char)
  | [] => pure []
  | .plain c :: rest => do
    let cs ← fill answer rest
    pure (c :: cs)
  | .reference _ name :: rest => do
    let given ← answer (String.ofList name)
    let cs ← fill answer rest
    pure (given.toList ++ cs)

/-- The text with the answers in place of its references; `none` when it has none and stays as it
is. -/
def substitute {m : Type → Type} [Monad m] (text : String) (answer : String → m String) :
    m (Option String) :=
  if references text = [] then pure none
  else do
    let cs ← fill answer (pieces text.toList)
    pure (some (String.ofList cs))

end JobConfig.Template

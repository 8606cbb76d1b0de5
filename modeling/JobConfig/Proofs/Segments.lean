import JobConfig.Proofs.Occurrences

/-!
# Texts written from segments

A template is written by putting mentions of parameters between segments of literal text
(`Segmented.written`). If no segment holds an opening bracket and no name a closing one, the pieces
of what is written are the characters of the segments and the mentions again
(`Segmented.pieces_written`). So reading and substituting undo the writing, whatever blanks the
mentions have inside their brackets: the text refers to the names in their order, and with a value
for each name it becomes the segments with the values between them (`Segmented.substitute_written`).
-/

namespace JobConfig.Template

variable {ε : Type}

/-! ## Plain characters and answers -/

theorem names_map_plain (cs : List Char) : (cs.map Piece.plain).filterMap Piece.name? = [] := by
  rw [List.filterMap_map]
  exact List.filterMap_eq_nil_iff.mpr fun _ _ => rfl

theorem filled_map_plain (value : String → String) (cs : List Char) :
    (cs.map Piece.plain).flatMap (Piece.filled value) = cs := by
  rw [List.flatMap_map]
  exact List.flatMap_singleton' cs

/-- With a value for every name, substituting fills the values in; it gives no new text when there
is nothing to fill in. -/
theorem substitute_eq_filled (value : String → String) (text : String) :
    substitute text (fun name => (.ok (value name) : Except ε String)) =
      .ok (if references text = [] then none else some (filled value text)) := by
  have hfill : fill (fun name => (.ok (value name) : Except ε String)) (pieces text.toList) =
      .ok ((pieces text.toList).flatMap (Piece.filled value)) :=
    (fill_eq_ok fun _ _ h => Except.ok.inj h).mpr ⟨fun _ _ => rfl, rfl⟩
  rw [substitute, hfill]
  split <;> rfl

/-! ## Segments -/

/-- A text of literal segments with mentions between them: the first segment, and each mention with
the segment behind it. -/
structure Segmented where
  head : List Char
  tail : List (Mention × List Char)

namespace Segmented

/-- The text, each mention as it is written. -/
def written (x : Segmented) : List Char :=
  x.head ++ x.tail.flatMap fun p => p.1.written ++ p.2

/-- The text, a value in place of each mention. -/
def filled (value : String → String) (x : Segmented) : List Char :=
  x.head ++ x.tail.flatMap fun p => (value (String.ofList p.1.name)).toList ++ p.2

/-- The names that are mentioned, in order. -/
def names (x : Segmented) : List String :=
  x.tail.map fun p => String.ofList p.1.name

/-- No bracket of a segment or a name can be taken for one of a mention. Closing brackets in segments
and opening ones in names cannot be. -/
structure Clear (x : Segmented) : Prop where
  head : '<' ∉ x.head
  segments : ∀ p ∈ x.tail, '<' ∉ p.2
  names : ∀ p ∈ x.tail, '>' ∉ p.1.name

/-- The pieces of a text from a mention on. -/
def tailPieces (tail : List (Mention × List Char)) : List Piece :=
  tail.flatMap fun p => .reference p.1.written p.1.name :: p.2.map .plain

theorem pieces_tail {tail : List (Mention × List Char)} (hs : ∀ p ∈ tail, '<' ∉ p.2)
    (hn : ∀ p ∈ tail, '>' ∉ p.1.name) :
    pieces (tail.flatMap fun p => p.1.written ++ p.2) = tailPieces tail := by
  induction tail with
  | nil => rw [List.flatMap_nil, pieces, tailPieces, List.flatMap_nil]
  | cons p tail ih =>
    rw [List.forall_mem_cons] at hs hn
    -- The first closing brackets are the mention's own, so it is one piece.
    have hm := p.1.pieces_append (close_notInfix (Mention.close_notMem_inner hn.1))
    rw [List.flatMap_cons, List.append_assoc, hm, pieces_append_of_notMem hs.1, ih hs.2 hn.2]
    rfl

/-- The scan finds the segments and the mentions that the text is written from. -/
theorem pieces_written {x : Segmented} (h : x.Clear) :
    pieces x.written = x.head.map .plain ++ tailPieces x.tail := by
  rw [written, pieces_append_of_notMem h.head, pieces_tail h.segments h.names]

theorem references_written {x : Segmented} (h : x.Clear) :
    references (String.ofList x.written) = x.names := by
  rw [references, String.toList_ofList, pieces_written h, List.filterMap_append, names_map_plain,
    List.nil_append, tailPieces, List.filterMap_flatMap, names, List.map_eq_flatMap]
  refine List.flatMap_congr fun p _ => ?_
  rw [names_reference, names_map_plain]

theorem filled_written {x : Segmented} (h : x.Clear) (value : String → String) :
    Template.filled value (String.ofList x.written) = String.ofList (x.filled value) := by
  rw [Template.filled, String.toList_ofList, pieces_written h, List.flatMap_append,
    filled_map_plain, tailPieces, List.flatMap_assoc, filled]
  refine congrArg (fun cs => String.ofList (x.head ++ cs)) (List.flatMap_congr fun p _ => ?_)
  rw [List.flatMap_cons, filled_map_plain, Piece.filled]

/-- A text that is written from segments refers to the names that are mentioned in it, one by one and
in order, and substituting gives the segments with the values between them; there is no new text
exactly if nothing is mentioned. -/
theorem substitute_written (x : Segmented) (h : x.Clear) :
    references (String.ofList x.written) = x.names ∧
    ∀ {ε : Type} (value : String → String), ∃ new : Option String,
      substitute (String.ofList x.written) (fun name => (.ok (value name) : Except ε String)) =
        .ok new ∧
      new.getD (String.ofList x.written) = String.ofList (x.filled value) ∧
      (new = none ↔ x.tail = []) := by
  have hnames : x.names = [] ↔ x.tail = [] := List.map_eq_nil_iff
  refine ⟨references_written h, fun value => ⟨_, substitute_eq_filled value _, ?_, ?_⟩⟩
  · rw [← filled_written h]
    split
    · rename_i hr
      rw [filled_of_references_eq_nil value hr]
      rfl
    · rfl
  · rw [references_written h, ← hnames]
    split <;> simp_all

/-- Mentions side by side and one at the end, with no blanks or unusual ones inside their brackets,
in a text with a closing bracket of its own and letters of more than one byte. -/
theorem substitute_written_adjacent :
    let a : Mention := ⟨[], ['a'], [' '], nofun, List.all_eq_true.mp rfl, by decide⟩
    let b : Mention := ⟨['\t', '\u00a0'], ['ü'], [], List.all_eq_true.mp rfl, nofun, by decide⟩
    let x : Segmented := ⟨"né>".toList, [(a, []), (b, " und ".toList), (a, [])]⟩
    x.Clear ∧
      String.ofList x.written =
        "né><<parameters.a >><<\t\u00a0parameters.ü>> und <<parameters.a >>" ∧
      references (String.ofList x.written) = ["a", "ü", "a"] ∧
      substitute (String.ofList x.written) (fun name => (.ok (name ++ "1") : Except Unit String)) =
        .ok (some "né>a1ü1 und a1") := by
  intro a b x
  have hx : x.Clear := ⟨by decide, by decide, by decide⟩
  obtain ⟨hr, hs⟩ := x.substitute_written hx
  obtain ⟨new, hsub, hnew, hnone⟩ := hs (ε := Unit) (· ++ "1")
  refine ⟨hx, by decide +kernel, hr, ?_⟩
  rw [hsub]
  cases new with
  | none => exact absurd (hnone.mp rfl) (List.cons_ne_nil _ _)
  | some text =>
    have hf : String.ofList (x.filled (· ++ "1")) = "né>a1ü1 und a1" := by decide +kernel
    rw [← hf, ← hnew]
    rfl

end Segmented

end JobConfig.Template

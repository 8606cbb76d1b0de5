import JobConfig.Proofs.Referable

/-!
# Spans in bytes

References can be looked for, and replaced, by their byte positions in the text: a scan that keeps
an offset searches the rest of the text for opening brackets and what is behind these for closing
ones (`turn`, `scan`), and the text is put together anew from the slices between the spans
(`splice`, `substituteSlices`). A slice can fail: its ends may lie beyond the text, inside a
character, or in the wrong order (`slice?`). None of these slices does. Each turn of the scan stands
behind some first characters of the text (`turn_spec`), so the scan finds the references of the
pieces (`scan_eq`), and the slices are the plain characters between them (`splice_eq`).

`placeholders_spans` adds what the spans are: they follow one another, and each is a pair of
brackets around the marker and the name.
-/

namespace JobConfig.Template

/-! ## Slices -/

theorem byteLength_eq_utf8ByteSize (cs : List Char) :
    byteLength cs = (String.ofList cs).utf8ByteSize := by
  induction cs with
  | nil => rfl
  | cons c cs ih =>
    rw [String.ofList_cons, String.utf8ByteSize_append, ← ih, String.utf8ByteSize_singleton,
      byteLength_cons]

/-- There is a boundary behind each beginning of a text. -/
theorem isValid_of_append {text : String} {as bs : List Char} (h : text.toList = as ++ bs) :
    String.Pos.Raw.IsValid text ⟨byteLength as⟩ := by
  refine String.Pos.Raw.isValid_iff_exists_append.mpr ⟨String.ofList as, String.ofList bs, ?_, ?_⟩
  · rw [← String.ofList_append, ← h, String.ofList_toList]
  · rw [byteLength_eq_utf8ByteSize, String.rawEndPos]

/-- The part of a text between two byte positions: they have to be boundaries of characters in the
text, and in order. -/
def slice? (text : String) (start stop : Nat) : Option String :=
  if h : String.Pos.Raw.IsValid text ⟨start⟩ ∧ String.Pos.Raw.IsValid text ⟨stop⟩ ∧ start ≤ stop then
    some (text.extract ⟨⟨start⟩, h.1⟩ ⟨⟨stop⟩, h.2.1⟩)
  else none

theorem le_of_slice? {text part : String} {start stop : Nat}
    (h : slice? text start stop = some part) : start ≤ stop := by
  unfold slice? at h
  split at h
  · rename_i hv
    exact hv.2.2
  · cases h

/-- What stands between two parts of a text is a slice. -/
theorem slice?_eq_some {text : String} {as bs cs : List Char} (h : text.toList = as ++ bs ++ cs) :
    slice? text (byteLength as) (byteLength (as ++ bs)) = some (String.ofList bs) := by
  have hbehind : text.toList = as ++ (bs ++ cs) := by rw [h, List.append_assoc]
  have hstart : String.Pos.Raw.IsValid text ⟨byteLength as⟩ := isValid_of_append hbehind
  have hle : byteLength as ≤ byteLength (as ++ bs) := by
    rw [byteLength_append]
    exact Nat.le_add_right _ _
  have hsize (ds : List Char) : byteLength ds = (String.ofList ds).toByteArray.size := by
    rw [byteLength_eq_utf8ByteSize, String.size_toByteArray]
  have hbytes : text.toByteArray =
      (String.ofList (as ++ bs)).toByteArray ++ (String.ofList cs).toByteArray := by
    rw [← String.toByteArray_append, ← String.ofList_append, ← h, String.ofList_toList]
  rw [slice?, dif_pos ⟨hstart, isValid_of_append h, hle⟩, Option.some.injEq,
    ← String.toByteArray_inj, String.toByteArray_extract, hbytes]
  dsimp only
  rw [hsize (as ++ bs), ByteArray.extract_append_size_left, String.ofList_append,
    String.toByteArray_append, ByteArray.extract_append_eq_right (hsize as) ByteArray.size_append]

/-- What stands behind a beginning of a text is a slice. -/
theorem slice?_rest {text : String} {as bs : List Char} (h : text.toList = as ++ bs) :
    slice? text (byteLength as) text.utf8ByteSize = some (String.ofList bs) := by
  have hend : text.toList = as ++ bs ++ [] := by rw [h, List.append_nil]
  have hsize : text.utf8ByteSize = byteLength (as ++ bs) := by
    rw [← h, byteLength_eq_utf8ByteSize, String.ofList_toList]
  rw [hsize]
  exact slice?_eq_some hend

/-! ## Searching -/

/-- Where a pattern first stands in a text, in bytes from the beginning. -/
def find? (pattern : List Char) : List Char → Option Nat
  | [] => if pattern.isEmpty then some 0 else none
  | c :: cs =>
    if pattern.isPrefixOf (c :: cs) then some 0
    else (find? pattern cs).map (c.utf8Size + ·)

/-- A pattern that is not found is nowhere in the text. -/
theorem find?_eq_none {pattern cs : List Char} (h : find? pattern cs = none) :
    ¬ pattern <:+: cs := by
  induction cs with
  | nil =>
    rw [find?] at h
    cases pattern with
    | nil => cases h
    | cons p ps => simp
  | cons c cs ih =>
    rw [find?] at h
    split at h
    · cases h
    · rename_i hp
      rw [List.isPrefixOf_iff_prefix] at hp
      rw [List.infix_cons_iff, not_or]
      exact ⟨hp, ih (Option.map_eq_none_iff.mp h)⟩

/-- A pair of brackets is found where it stands, and no pair stands before it, also not with the
first bracket of this one. -/
theorem find?_eq_some {b : Char} {cs : List Char} {n : Nat} (h : find? [b, b] cs = some n) :
    ∃ as ds, cs = as ++ b :: b :: ds ∧ n = byteLength as ∧ ¬ [b, b] <:+: as ++ [b] := by
  induction cs generalizing n with
  | nil => cases h
  | cons c cs ih =>
    rw [find?] at h
    split at h
    · rename_i hp
      obtain ⟨ds, hd⟩ := List.isPrefixOf_iff_prefix.mp hp
      cases h
      refine ⟨[], ds, hd.symm, rfl, fun hi => ?_⟩
      exact absurd hi.length_le (by simp)
    · rename_i hp
      rw [List.isPrefixOf_iff_prefix] at hp
      obtain ⟨m, hm, rfl⟩ := Option.map_eq_some_iff.mp h
      obtain ⟨as, ds, rfl, rfl, hn⟩ := ih hm
      refine ⟨c :: as, ds, rfl, rfl, ?_⟩
      rw [List.cons_append, List.infix_cons_iff, not_or]
      refine ⟨fun hb => hp (hb.trans ?_), hn⟩
      exact List.cons_prefix_cons.mpr ⟨rfl, (List.prefix_append_right_inj as).mpr
        (List.cons_prefix_cons.mpr ⟨rfl, List.nil_prefix⟩)⟩

/-- The search for closing brackets splits the text at them. -/
theorem splitClose?_of_find? {cs : List Char} {n : Nat} (h : find? ['>', '>'] cs = some n) :
    ∃ inner after, splitClose? cs = some (inner, after) ∧ n = byteLength inner := by
  obtain ⟨inner, after, hcs, hn, hclose⟩ := find?_eq_some h
  exact ⟨inner, after, splitClose?_eq_some_iff.mpr ⟨hcs, hclose⟩, hn⟩

theorem splitClose?_eq_none_iff {cs : List Char} :
    splitClose? cs = none ↔ ¬ ['>', '>'] <:+: cs := by
  constructor
  · intro h
    fun_induction splitClose? cs with
    | case1 => decide
    | case2 after => cases h
    | case3 c rest hne ih =>
      rw [List.infix_cons_iff, not_or]
      refine ⟨fun hp => ?_, ih (Option.map_eq_none_iff.mp h)⟩
      obtain ⟨rfl, hd⟩ := List.cons_prefix_cons.mp hp
      obtain ⟨after, hr⟩ := hd
      exact hne after rfl hr.symm
  · intro h
    refine Option.eq_none_iff_forall_ne_some.mpr fun split hs => h ?_
    obtain ⟨inner, after⟩ := split
    refine ⟨inner, after, ?_⟩
    rw [eq_of_splitClose? hs, List.append_assoc]
    rfl

/-- The text in front of the first pair of opening brackets is plain. -/
theorem pieces_append_of_unopened {cs : List Char} (h : ¬ ['<', '<'] <:+: cs ++ ['<'])
    (rest : List Char) :
    pieces (cs ++ '<' :: '<' :: rest) = cs.map .plain ++ pieces ('<' :: '<' :: rest) := by
  induction cs with
  | nil => rfl
  | cons c cs ih =>
    rw [List.cons_append, List.infix_cons_iff, not_or] at h
    rw [List.cons_append, List.map_cons, List.cons_append, ← ih h.2]
    by_cases hc : c = '<'
    · subst hc
      cases cs with
      | nil => exact absurd List.prefix_rfl h.1
      | cons d cs =>
        have hd : d ≠ '<' := fun hd => h.1 (by
          rw [hd]
          exact List.cons_prefix_cons.mpr ⟨rfl, List.cons_prefix_cons.mpr ⟨rfl, List.nil_prefix⟩⟩)
        exact pieces_cons_cons_of_ne hd _
    · exact pieces_cons_of_ne hc _

theorem unopened_of_notInfix {cs : List Char} (h : ¬ ['<', '<'] <:+: cs) : Unopened cs := by
  refine List.isChain_iff_forall_rel_of_append_cons_cons.mpr ?_
  rintro a b as bs rfl ⟨rfl, rfl⟩
  exact h ⟨as, bs, by rw [List.append_assoc]; rfl⟩

/-- Without closing brackets there is no reference. -/
theorem pieces_of_unclosed {cs : List Char} (h : ¬ ['>', '>'] <:+: cs) :
    pieces cs = cs.map .plain := by
  fun_induction pieces cs with
  | case1 => rfl
  | case2 rest piece after hlt ho ih =>
    obtain ⟨inner, name, hs, -, -⟩ := opened?_eq_some_iff.mp ho
    refine absurd ⟨'<' :: '<' :: inner, after, ?_⟩ h
    rw [eq_of_splitClose? hs, List.append_assoc]
    rfl
  | case3 rest ho ih =>
    rw [List.infix_cons_iff, List.infix_cons_iff, not_or, not_or] at h
    rw [ih h.2.2]
    rfl
  | case4 c rest hne ih =>
    rw [List.infix_cons_iff, not_or] at h
    rw [ih h.2, List.map_cons]

/-- Brackets around what names nothing are plain where they open. -/
theorem pieces_of_unnamed {cs inner after : List Char} (hs : splitClose? cs = some (inner, after))
    (hn : innerName? inner = none) :
    pieces ('<' :: '<' :: cs) = .plain '<' :: .plain '<' :: pieces cs := by
  have ho : opened? cs = none := by
    refine Option.eq_none_iff_forall_ne_some.mpr fun found ho => ?_
    obtain ⟨piece, after', hlt⟩ := found
    obtain ⟨inner', name, hs', hn', -⟩ := opened?_eq_some_iff.mp ho
    cases hs.symm.trans hs'
    cases hn.symm.trans hn'
  rw [pieces, ho]

theorem placeholdersFrom_plain_append (as bs : List Char) (ps : List Piece) :
    placeholdersFrom (byteLength as) (bs.map .plain ++ ps) =
      placeholdersFrom (byteLength (as ++ bs)) ps := by
  rw [placeholdersFrom_append, placeholdersFrom_plain, written_plain, byteLength_append,
    List.nil_append]

/-- A plain character joins those that have been passed. -/
theorem placeholdersFrom_plain_cons (as bs : List Char) (c : Char) (ps : List Piece) :
    placeholdersFrom (byteLength (as ++ bs)) (.plain c :: ps) =
      placeholdersFrom (byteLength (as ++ (bs ++ [c]))) ps := by
  rw [← List.append_assoc]
  exact placeholdersFrom_plain_append (as ++ bs) [c] ps

theorem placeholdersFrom_reference (as w name : List Char) (ps : List Piece) :
    placeholdersFrom (byteLength as) (.reference w name :: ps) =
      ⟨byteLength as, byteLength (as ++ w), String.ofList name⟩ ::
        placeholdersFrom (byteLength (as ++ w)) ps := by
  rw [byteLength_append]
  rfl

/-! ## The scan by offsets -/

/-- What a turn of the scan comes to: the reference that it finds, if any, and where the next turn
begins. -/
structure Turn where
  found : Option Placeholder
  next : Nat

/-- A turn of the scan that has found opening brackets: no turn if there are no closing ones behind
them, and no outcome at all if a slice fails. -/
def turnAt (text : String) (start : Nat) : Option (Option Turn) := do
  let behind ← slice? text (start + 2) text.utf8ByteSize
  let some length := find? ['>', '>'] behind.toList | return none
  let inner ← slice? text (start + 2) (start + 2 + length)
  match innerName? inner.toList with
  | some name =>
    let stop := start + 2 + length + 2
    return some ⟨some ⟨start, stop, String.ofList name⟩, stop⟩
  | none => return some ⟨none, start + 2⟩

/-- A turn of the scan from an offset: no turn if there are no brackets left. -/
def turn (text : String) (offset : Nat) : Option (Option Turn) := do
  let rest ← slice? text offset text.utf8ByteSize
  let some before := find? ['<', '<'] rest.toList | return none
  turnAt text (offset + before)

theorem lt_of_turnAt {text : String} {start : Nat} {t : Turn}
    (h : turnAt text start = some (some t)) : start < t.next := by
  unfold turnAt at h
  obtain ⟨behind, -, h⟩ := Option.bind_eq_some_iff.mp h
  split at h
  · obtain ⟨inner, -, h⟩ := Option.bind_eq_some_iff.mp h
    split at h <;> cases h <;> dsimp only <;> omega
  · cases h

/-- The scan goes forward, and it stays in the text. -/
theorem lt_of_turn {text : String} {offset : Nat} {t : Turn}
    (h : turn text offset = some (some t)) : offset < t.next ∧ offset ≤ text.utf8ByteSize := by
  unfold turn at h
  obtain ⟨rest, hr, h⟩ := Option.bind_eq_some_iff.mp h
  split at h
  · exact ⟨Nat.lt_of_le_of_lt (Nat.le_add_right _ _) (lt_of_turnAt h), le_of_slice? hr⟩
  · cases h

/-- The references that the scan finds from an offset on, if no slice fails. -/
def scan (text : String) (offset : Nat) : Option (List Placeholder) :=
  match h : turn text offset with
  | none => none
  | some none => some []
  | some (some t) =>
    have := lt_of_turn h
    (scan text t.next).map (t.found.toList ++ ·)
termination_by text.utf8ByteSize + 1 - offset

theorem scan_of_done {text : String} {offset : Nat} (h : turn text offset = some none) :
    scan text offset = some [] := by
  rw [scan]
  split <;> simp_all

theorem scan_of_turn {text : String} {offset : Nat} {t : Turn}
    (h : turn text offset = some (some t)) :
    scan text offset = (scan text t.next).map (t.found.toList ++ ·) := by
  rw [scan]
  split <;> simp_all

/-- Behind opening brackets, no slice fails: the turn finds what a pair of closing ones takes off, if
there is such a pair. -/
theorem turnAt_eq {text : String} {as cs : List Char} (h : text.toList = as ++ '<' :: '<' :: cs) :
    turnAt text (byteLength as) = some ((splitClose? cs).map fun (inner, _) =>
      match innerName? inner with
      | some name =>
        let stop := byteLength (as ++ ('<' :: '<' :: inner ++ ['>', '>']))
        ⟨some ⟨byteLength as, stop, String.ofList name⟩, stop⟩
      | none => ⟨none, byteLength (as ++ ['<', '<'])⟩) := by
  have hbehind : text.toList = as ++ ['<', '<'] ++ cs := by simp [h]
  have hstart : byteLength as + 2 = byteLength (as ++ ['<', '<']) :=
    (byteLength_append as ['<', '<']).symm
  unfold turnAt
  rw [hstart, slice?_rest hbehind, Option.bind_eq_bind, Option.bind_some, String.toList_ofList]
  cases hc : find? ['>', '>'] cs with
  | none =>
    rw [splitClose?_eq_none_iff.mpr (find?_eq_none hc)]
    rfl
  | some n =>
    obtain ⟨inner, after, hs, rfl⟩ := splitClose?_of_find? hc
    have hinner : text.toList = as ++ ['<', '<'] ++ inner ++ '>' :: '>' :: after := by
      rw [hbehind, eq_of_splitClose? hs, ← List.append_assoc]
    have hstop : byteLength (as ++ ['<', '<'] ++ inner) + 2 =
        byteLength (as ++ ('<' :: '<' :: inner ++ ['>', '>'])) := by
      have htwo : byteLength ['>', '>'] = 2 := rfl
      rw [← htwo, ← byteLength_append]
      simp
    dsimp only
    rw [← byteLength_append, slice?_eq_some hinner, Option.bind_some, String.toList_ofList, hs,
      hstop]
    cases hn : innerName? inner with
    | none => simp [hn]
    | some name => simp [hn]

/-- A turn from the end of a beginning of the text: no slice fails, and either the rest holds no
reference, or the next turn is behind some more of the text, and what is between holds the reference
that is found. -/
theorem turn_spec {text : String} {as rest : List Char} (h : text.toList = as ++ rest) :
    (turn text (byteLength as) = some none ∧ placeholdersFrom (byteLength as) (pieces rest) = []) ∨
    ∃ found bs cs, rest = bs ++ cs ∧ bs ≠ [] ∧
      turn text (byteLength as) = some (some ⟨found, byteLength (as ++ bs)⟩) ∧
      placeholdersFrom (byteLength as) (pieces rest) =
        found.toList ++ placeholdersFrom (byteLength (as ++ bs)) (pieces cs) := by
  unfold turn
  rw [slice?_rest h, Option.bind_eq_bind, Option.bind_some, String.toList_ofList]
  cases hf : find? ['<', '<'] rest with
  | none =>
    left
    rw [pieces_of_unopened (unopened_of_notInfix (find?_eq_none hf)), placeholdersFrom_plain]
    exact ⟨rfl, rfl⟩
  | some n =>
    obtain ⟨bs, cs, rfl, rfl, hopen⟩ := find?_eq_some hf
    have htext : text.toList = as ++ bs ++ '<' :: '<' :: cs := by rw [h, List.append_assoc]
    dsimp only
    rw [← byteLength_append, turnAt_eq htext, pieces_append_of_unopened hopen,
      placeholdersFrom_plain_append]
    cases hs : splitClose? cs with
    | none =>
      left
      have hbrackets : '>' ∉ ['<', '<'] := by decide
      have hclose : ¬ ['>', '>'] <:+: '<' :: '<' :: cs :=
        (close_infix_append_left hbrackets cs).not.mpr (splitClose?_eq_none_iff.mp hs)
      rw [pieces_of_unclosed hclose, placeholdersFrom_plain]
      exact ⟨rfl, rfl⟩
    | some split =>
      right
      obtain ⟨inner, after⟩ := split
      cases hn : innerName? inner with
      | none =>
        -- The next turn is right behind the opening brackets, where the pieces go on as well.
        refine ⟨none, bs ++ ['<', '<'], cs, by simp, by simp, by simp [hn], ?_⟩
        rw [pieces_of_unnamed hs hn, ← List.append_assoc]
        exact placeholdersFrom_plain_append (as ++ bs) ['<', '<'] (pieces cs)
      | some name =>
        let stop := byteLength (as ++ bs ++ ('<' :: '<' :: inner ++ ['>', '>']))
        let found : Placeholder := ⟨byteLength (as ++ bs), stop, String.ofList name⟩
        refine ⟨some found, bs ++ ('<' :: '<' :: inner ++ ['>', '>']), after, ?_, by simp, ?_, ?_⟩
        · rw [eq_of_splitClose? hs]
          simp
        · simp only [Option.map_some, hn, found, stop, List.append_assoc]
        · rw [pieces_of_split hs hn, placeholdersFrom_reference, ← List.append_assoc as bs]
          rfl

/-- The scan from the end of a beginning of the text finds the references behind it, and no slice
fails. -/
theorem scan_eq {text : String} {as rest : List Char} (h : text.toList = as ++ rest) :
    scan text (byteLength as) = some (placeholdersFrom (byteLength as) (pieces rest)) := by
  -- By induction on the rest: each turn passes some of it.
  rcases turn_spec h with ⟨ht, hp⟩ | ⟨found, bs, cs, rfl, hbs, ht, hp⟩
  · rw [scan_of_done ht, hp]
  · have hcs : text.toList = as ++ bs ++ cs := by rw [h, List.append_assoc]
    have hlt : cs.length < (bs ++ cs).length := by
      rw [List.length_append]
      exact Nat.lt_add_of_pos_left (List.length_pos_iff.mpr hbs)
    rw [scan_of_turn ht, scan_eq hcs, hp]
    rfl
termination_by rest.length

theorem scan_placeholders (text : String) : scan text 0 = some (placeholders text) := by
  have h : text.toList = [] ++ text.toList := rfl
  exact scan_eq h

/-! ## The text between the spans -/

variable {ε : Type}

/-- The text from a position on, put together anew: the slices in front of, between and behind the
spans, and the answers between these. A slice that fails leaves no outcome. -/
def splice (text : String) (answer : String → Except ε String) (last : Nat) :
    List Placeholder → Option (Except ε String)
  | [] => do
    let plain ← slice? text last text.utf8ByteSize
    return .ok plain
  | p :: ps => do
    let plain ← slice? text last p.start
    match answer p.name with
    | .error e => return .error e
    | .ok given =>
      let rest ← splice text answer p.stop ps
      return (plain ++ given ++ ·) <$> rest

/-- The text with the answers in place of its references, by the spans that the scan finds. -/
def substituteSlices (text : String) (answer : String → Except ε String) :
    Option (Except ε (Option String)) := do
  let found ← scan text 0
  if found = [] then return .ok none
  let filled ← splice text answer 0 found
  return some <$> filled

/-- No slice of a text that pieces make up fails: what stands between the spans are the plain
characters `bs` that have been passed since the last one, and those of the pieces. -/
theorem splice_eq {text : String} {as bs : List Char} {ps : List Piece}
    (h : text.toList = as ++ bs ++ ps.flatMap Piece.written) (answer : String → Except ε String) :
    splice text answer (byteLength as) (placeholdersFrom (byteLength (as ++ bs)) ps) =
      some ((fun cs => String.ofList (bs ++ cs)) <$> fill answer ps) := by
  induction ps generalizing as bs with
  | nil =>
    rw [List.flatMap_nil, List.append_nil] at h
    rw [placeholdersFrom, splice, slice?_rest h, fill, map_pure, List.append_nil]
    rfl
  | cons p ps ih =>
    rw [List.flatMap_cons] at h
    cases p with
    | plain c =>
      -- No slice is taken yet.
      have hc : text.toList = as ++ (bs ++ [c]) ++ ps.flatMap Piece.written := by
        rw [h, Piece.written]
        simp
      rw [placeholdersFrom_plain_cons, ih hc, fill]
      cases fill answer ps <;> simp
    | reference w name =>
      have hw : text.toList = as ++ bs ++ w ++ [] ++ ps.flatMap Piece.written := by
        rw [h, Piece.written]
        simp
      rw [placeholdersFrom_reference, splice, slice?_eq_some h, fill]
      cases answer (String.ofList name) with
      | error e => rfl
      | ok given =>
        have ih := ih hw
        rw [List.append_nil] at ih
        dsimp only
        rw [ih]
        cases fill answer ps <;> simp [String.append_assoc]

theorem map_name_placeholdersFrom (start : Nat) (ps : List Piece) :
    (placeholdersFrom start ps).map Placeholder.name = ps.filterMap Piece.name? := by
  induction ps generalizing start with
  | nil => rfl
  | cons p ps ih =>
    cases p with
    | plain c => exact ih _
    | reference w name =>
      rw [placeholdersFrom]
      exact congrArg (_ :: ·) (ih _)

/-- The names that a text refers to are those of its references. -/
theorem map_name_placeholders (text : String) :
    (placeholders text).map Placeholder.name = references text :=
  map_name_placeholdersFrom 0 _

/-- Substituting by slices comes to the same as substituting in the pieces, and no slice fails. -/
theorem substituteSlices_eq (text : String) (answer : String → Except ε String) :
    substituteSlices text answer = some (substitute text answer) := by
  have hsplice : splice text answer 0 (placeholders text) =
      some (String.ofList <$> fill answer (pieces text.toList)) := by
    have h : text.toList = [] ++ [] ++ (pieces text.toList).flatMap Piece.written :=
      (written_pieces text.toList).symm
    exact splice_eq h answer
  have hnone : placeholders text = [] ↔ references text = [] := by
    rw [← map_name_placeholders, List.map_eq_nil_iff]
  rw [substituteSlices, scan_placeholders, substitute]
  simp only [Option.bind_eq_bind, Option.bind_some, hnone]
  split
  · rfl
  · rw [hsplice]
    cases fill answer (pieces text.toList) <;> rfl

/-! ## What a span is -/

/-- Brackets name what stands behind the marker between them, blanks at the ends apart. -/
theorem innerName?_eq_some_iff {inner name : List Char} :
    innerName? inner = some name ↔ trim inner = marker ++ name ∧ isName name = true := by
  rw [innerName?]
  constructor
  · intro h
    split at h
    · rename_i hp
      obtain ⟨rest, hr⟩ := List.isPrefixOf_iff_prefix.mp hp
      rw [← hr, List.drop_left] at h
      dsimp only at h
      split at h
      · rename_i hn
        cases h
        exact ⟨hr.symm, hn⟩
      · cases h
    · cases h
  · rintro ⟨ht, hn⟩
    have hp : marker.isPrefixOf (marker ++ name) = true :=
      List.isPrefixOf_iff_prefix.mpr (List.prefix_append _ _)
    simp only [ht, hp, if_true, List.drop_left, hn]

/-- A reference is a pair of opening brackets up to the first closing ones, and what is between them
names something. -/
theorem exists_inner_of_mem_pieces {cs w name : List Char} (h : .reference w name ∈ pieces cs) :
    ∃ inner, w = '<' :: '<' :: inner ++ ['>', '>'] ∧ innerName? inner = some name ∧
      ¬ ['>', '>'] <:+: inner := by
  fun_induction pieces cs with
  | case1 => cases h
  | case2 rest piece after hlt ho ih =>
    obtain ⟨inner, name', hs, hn, rfl⟩ := opened?_eq_some_iff.mp ho
    rcases List.mem_cons.mp h with he | h
    · cases he
      have hclose := (splitClose?_eq_some_iff.mp hs).2
      exact ⟨inner, rfl, hn, fun hi => hclose (hi.trans (List.prefix_append _ _).isInfix)⟩
    · exact ih h
  | case3 rest ho ih => exact ih (by simpa using h)
  | case4 c rest hne ih => exact ih (by simpa using h)

/-- Each of the references among pieces is one of the pieces, and stands where the characters of the
pieces before it end. -/
theorem exists_piece_of_mem {as : List Char} {ps : List Piece} {p : Placeholder}
    (h : p ∈ placeholdersFrom (byteLength as) ps) :
    ∃ before w name after, ps = before ++ .reference w name :: after ∧
      p = ⟨byteLength (as ++ before.flatMap Piece.written),
        byteLength (as ++ before.flatMap Piece.written ++ w), String.ofList name⟩ := by
  induction ps generalizing as with
  | nil => cases h
  | cons q ps ih =>
    have hrest (h : p ∈ placeholdersFrom (byteLength (as ++ q.written)) ps) :
        ∃ before w name after, q :: ps = before ++ .reference w name :: after ∧
          p = ⟨byteLength (as ++ before.flatMap Piece.written),
            byteLength (as ++ before.flatMap Piece.written ++ w), String.ofList name⟩ := by
      obtain ⟨before, w, name, after, rfl, rfl⟩ := ih h
      refine ⟨q :: before, w, name, after, rfl, ?_⟩
      rw [List.flatMap_cons, List.append_assoc as]
    cases q with
    | plain c => exact hrest (placeholdersFrom_plain_append as [c] ps ▸ h)
    | reference w name =>
      rw [placeholdersFrom_reference] at h
      rcases List.mem_cons.mp h with rfl | h
      · exact ⟨[], w, name, ps, rfl, by simp⟩
      · exact hrest h

theorem pairwise_placeholdersFrom (start : Nat) (ps : List Piece) :
    (placeholdersFrom start ps).Pairwise fun p q => p.stop ≤ q.start := by
  induction ps generalizing start with
  | nil => exact .nil
  | cons p ps ih =>
    cases p with
    | plain c => exact ih _
    | reference w name => exact .cons (fun q hq => (span_of_mem hq).1) (ih _)

/-- A reference stands in the text: between its positions, which are boundaries of characters, there
is a pair of opening brackets, then no closing ones up to those that end it, and what is between
them is, without blanks at its ends, the marker and a name. -/
structure Placeholder.StandsIn (p : Placeholder) (text : String) (inner : List Char) : Prop where
  start_valid : String.Pos.Raw.IsValid text ⟨p.start⟩
  stop_valid : String.Pos.Raw.IsValid text ⟨p.stop⟩
  start_lt : p.start < p.stop
  slice : slice? text p.start p.stop = some (String.ofList ('<' :: '<' :: inner ++ ['>', '>']))
  unclosed : ¬ ['>', '>'] <:+: inner
  content : trim inner = marker ++ p.name.toList
  named : isName p.name.toList = true

theorem standsIn_of_mem {text : String} {p : Placeholder} (h : p ∈ placeholders text) :
    ∃ inner, p.StandsIn text inner := by
  have hp : p ∈ placeholdersFrom (byteLength []) (pieces text.toList) := h
  obtain ⟨before, w, name, after, hps, rfl⟩ := exists_piece_of_mem hp
  have hw : .reference w name ∈ pieces text.toList := by simp [hps]
  obtain ⟨inner, rfl, hn, hclose⟩ := exists_inner_of_mem_pieces hw
  obtain ⟨hcontent, hname⟩ := innerName?_eq_some_iff.mp hn
  have htext : text.toList = before.flatMap Piece.written ++ ('<' :: '<' :: inner ++ ['>', '>']) ++
      after.flatMap Piece.written := by
    rw [← written_pieces text.toList, hps]
    simp [Piece.written]
  refine ⟨inner, ?_, ?_, ?_, ?_, hclose, ?_, ?_⟩
  · exact isValid_of_append (htext.trans (List.append_assoc _ _ _))
  · exact isValid_of_append htext
  · have hpos : 0 < byteLength ('<' :: '<' :: inner ++ ['>', '>']) :=
      byteLength_pos (List.cons_ne_nil _ _)
    exact Nat.lt_of_lt_of_eq (Nat.lt_add_of_pos_right hpos) (byteLength_append _ _).symm
  · exact slice?_eq_some htext
  · rw [String.toList_ofList]
    exact hcontent
  · rw [String.toList_ofList]
    exact hname

/-- The references of a text follow one another, and each stands in it. They are what the scan by
offsets finds; neither it nor substituting by slices ever takes a slice out of range or through a
character, whatever the text. -/
theorem placeholders_spans (text : String) :
    (placeholders text).Pairwise (fun p q => p.stop ≤ q.start) ∧
    (∀ p ∈ placeholders text, ∃ inner, p.StandsIn text inner) ∧
    scan text 0 = some (placeholders text) ∧
    ∀ {ε : Type} (answer : String → Except ε String),
      substituteSlices text answer = some (substitute text answer) :=
  ⟨pairwise_placeholdersFrom 0 _, fun _ hp => standsIn_of_mem hp, scan_placeholders text,
    fun answer => substituteSlices_eq text answer⟩

example : placeholders "é<< parameters.ü>><<parameters.>>" = [⟨2, 20, "ü"⟩] := by decide +kernel

end JobConfig.Template

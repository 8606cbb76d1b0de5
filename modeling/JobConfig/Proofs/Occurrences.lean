import JobConfig.Proofs.Splicing
import Mathlib.Algebra.Ring.Parity
import Mathlib.Data.List.DropRight

/-!
# Where references are found

A `Mention` is a reference as it can be written. The scan for references goes through a text from
left to right, and at a pair of opening brackets that starts no reference it steps over both. So it
comes to a mention behind other text, unless a reference that begins in this text reaches into the
mention (`scansTo_bracket`), and the brackets directly in front of the mention are taken two by two:
an even number of them is passed over (`pieces_even_run`), and the last of an odd number takes the
mention's own first bracket with it, so that the mention is plain text (`Mention.pieces_of_odd`).

`Mention.covered_iff` puts this together: a mention is found, or overlaps a reference that is,
exactly when the number of opening brackets in front of it is even, or a reference that begins
before them reaches into it. One more bracket than a reference has hides it
(`Mention.not_covered_odd`).
-/

namespace JobConfig.Template

/-! ## Lengths and spans -/

@[simp] theorem byteLength_nil : byteLength [] = 0 := rfl

@[simp] theorem byteLength_cons (c : Char) (cs : List Char) :
    byteLength (c :: cs) = c.utf8Size + byteLength cs := rfl

@[simp] theorem byteLength_append (cs ds : List Char) :
    byteLength (cs ++ ds) = byteLength cs + byteLength ds := by
  induction cs with
  | nil => rw [List.nil_append, byteLength_nil, Nat.zero_add]
  | cons c cs ih => rw [List.cons_append, byteLength_cons, byteLength_cons, ih, Nat.add_assoc]

theorem byteLength_brackets (n : Nat) : byteLength (List.replicate n '<') = n := by
  induction n with
  | zero => rfl
  | succ n ih =>
    rw [List.replicate_succ, byteLength_cons, ih, Nat.add_comm]
    rfl

theorem byteLength_pos {cs : List Char} (h : cs ≠ []) : 0 < byteLength cs := by
  cases cs with
  | nil => exact absurd rfl h
  | cons c cs =>
    have hc := c.utf8Size_pos
    rw [byteLength_cons]
    omega

/-- The references among pieces put together are those of the first and those of the last, the
latter where the first ones end. -/
theorem placeholdersFrom_append (start : Nat) (ps qs : List Piece) :
    placeholdersFrom start (ps ++ qs) = placeholdersFrom start ps ++
      placeholdersFrom (start + byteLength (ps.flatMap Piece.written)) qs := by
  induction ps generalizing start with
  | nil => rfl
  | cons p ps ih =>
    rw [List.cons_append, placeholdersFrom, placeholdersFrom, ih, List.flatMap_cons,
      byteLength_append, ← Nat.add_assoc]
    cases p.name? <;> rfl

@[simp] theorem written_plain (cs : List Char) :
    (cs.map Piece.plain).flatMap Piece.written = cs := by
  rw [List.flatMap_map]
  exact List.flatMap_singleton' cs

/-- What stands behind pieces that the scan has got behind it stands behind their characters. -/
theorem eq_written_of_pieces {cs rest : List Char} {ps : List Piece}
    (h : pieces (cs ++ rest) = ps ++ pieces rest) : cs = ps.flatMap Piece.written := by
  have hw := congrArg (List.flatMap Piece.written) h
  rw [List.flatMap_append, written_pieces, written_pieces] at hw
  exact List.append_cancel_right hw

theorem placeholdersFrom_plain (start : Nat) (cs : List Char) :
    placeholdersFrom start (cs.map .plain) = [] := by
  induction cs generalizing start with
  | nil => rfl
  | cons c cs ih => exact ih _

/-- A reference stands where its pieces stand. -/
theorem span_of_mem {start : Nat} {ps : List Piece} {p : Placeholder}
    (h : p ∈ placeholdersFrom start ps) :
    start ≤ p.start ∧ p.start ≤ p.stop ∧
      p.stop ≤ start + byteLength (ps.flatMap Piece.written) := by
  induction ps generalizing start with
  | nil => cases h
  | cons q ps ih =>
    rw [List.flatMap_cons, byteLength_append]
    rw [placeholdersFrom] at h
    have hrest : p ∈ placeholdersFrom (start + byteLength q.written) ps →
        start ≤ p.start ∧ p.start ≤ p.stop ∧ p.stop ≤ start +
          (byteLength q.written + byteLength (ps.flatMap Piece.written)) := fun h => by
      have hi := ih h
      omega
    cases hn : q.name? with
    | none =>
      rw [hn] at h
      exact hrest h
    | some name =>
      rw [hn] at h
      rcases List.mem_cons.mp h with rfl | h
      · dsimp only
        omega
      · exact hrest h

/-! ## Closing brackets -/

/-- The first pair of closing brackets is where none comes before, also not with the first bracket
of the pair itself. -/
theorem splitClose?_eq_some_iff {text inner after : List Char} :
    splitClose? text = some (inner, after) ↔
      text = inner ++ '>' :: '>' :: after ∧ ¬ ['>', '>'] <:+: inner ++ ['>'] := by
  constructor
  · intro h
    refine ⟨eq_of_splitClose? h, ?_⟩
    fun_induction splitClose? text generalizing inner with
    | case1 => cases h
    | case2 after' =>
      cases h
      decide
    | case3 c rest hne ih =>
      obtain ⟨⟨i, a⟩, hs, he⟩ := Option.map_eq_some_iff.mp h
      cases he
      rw [List.cons_append, List.infix_cons_iff]
      rintro (hp | hi)
      · obtain ⟨rfl, hd⟩ := List.cons_prefix_cons.mp hp
        have hr := eq_of_splitClose? hs
        cases i with
        | nil => exact hne _ rfl hr
        | cons d i =>
          obtain ⟨rfl, -⟩ := List.cons_prefix_cons.mp hd
          exact hne _ rfl hr
      · exact ih hs hi
  · rintro ⟨rfl, h⟩
    induction inner with
    | nil => rfl
    | cons c inner ih =>
      rw [List.cons_append, List.infix_cons_iff, not_or] at h
      rw [List.cons_append, splitClose?, ih h.2]
      · rfl
      · rintro after' rfl hr
        refine h.1 (List.cons_prefix_cons.mpr ⟨rfl, ?_⟩)
        cases inner with
        | nil => exact List.prefix_rfl
        | cons d inner =>
          rw [List.cons_append, List.cons_eq_cons] at hr
          rw [hr.1, List.cons_append]
          exact List.cons_prefix_cons.mpr ⟨rfl, List.nil_prefix⟩

theorem close_notInfix {cs : List Char} (h : '>' ∉ cs) : ¬ ['>', '>'] <:+: cs ++ ['>'] := by
  intro hi
  have hc : (cs ++ ['>']).count '>' = 1 := by
    rw [List.count_append, List.count_eq_zero.mpr h]
    rfl
  have hle := hi.sublist.count_le '>'
  rw [hc] at hle
  exact absurd hle (by decide)

/-! ## Names inside brackets -/

theorem trimLeft_of_not_blank {c : Char} (h : isBlank c = false) (cs : List Char) :
    trimLeft (c :: cs) = c :: cs := by
  rw [trimLeft, List.dropWhile_cons, h]
  rfl

theorem trimRight_of_not_blank {c : Char} (h : isBlank c = false) (cs : List Char) :
    trimRight (cs ++ [c]) = cs ++ [c] := by
  rw [trimRight, List.reverse_append, List.reverse_singleton, List.singleton_append,
    List.dropWhile_cons, h, if_neg Bool.false_ne_true, List.reverse_cons, List.reverse_reverse]

theorem trimRight_append_blanks {bs : List Char} (h : ∀ c ∈ bs, isBlank c = true)
    (cs : List Char) : trimRight (cs ++ bs) = trimRight cs := by
  have hd : (bs.reverse ++ cs.reverse).dropWhile isBlank = cs.reverse.dropWhile isBlank :=
    List.dropWhile_append_of_pos fun c hc => h c (List.mem_reverse.mp hc)
  rw [trimRight, List.reverse_append, hd, trimRight]

/-- Trimming takes off the blanks around a text that has none at its ends. -/
theorem trim_blanks_around {bs es : List Char} (hbs : ∀ c ∈ bs, isBlank c = true)
    (hes : ∀ c ∈ es, isBlank c = true) {c : Char} {cs : List Char} (hc : isBlank c = false)
    (hcs : trimRight (c :: cs) = c :: cs) : trim (bs ++ c :: cs ++ es) = c :: cs := by
  have hl : trimLeft (bs ++ (c :: cs ++ es)) = trimLeft (c :: cs ++ es) :=
    List.dropWhile_append_of_pos hbs
  rw [trim, List.append_assoc, hl, List.cons_append, trimLeft_of_not_blank hc, ← List.cons_append,
    trimRight_append_blanks hes, hcs]

/-- What begins with a bracket names nothing. -/
theorem innerName?_of_bracket (cs : List Char) : innerName? ('<' :: cs) = none := by
  have ht : ∃ ds, trim ('<' :: cs) = '<' :: ds := by
    have hb : isBlank '<' = false := by decide
    rw [trim, trimLeft_of_not_blank hb, trimRight, List.reverse_cons, List.dropWhile_append]
    split
    · exact ⟨[], by rw [List.dropWhile_cons, hb]; rfl⟩
    · rw [List.reverse_append]
      exact ⟨_, rfl⟩
  obtain ⟨ds, hd⟩ := ht
  have hp : marker.isPrefixOf ('<' :: ds) = false := rfl
  rw [innerName?, hd, hp]
  rfl

/-! ## Scanning -/

theorem pieces_append_of_notMem {cs : List Char} (h : '<' ∉ cs) (rest : List Char) :
    pieces (cs ++ rest) = cs.map .plain ++ pieces rest := by
  induction cs with
  | nil => rfl
  | cons c cs ih =>
    rw [List.mem_cons, not_or] at h
    rw [List.cons_append, pieces_cons_of_ne (Ne.symm h.1), ih h.2]
    rfl

theorem pieces_cons_cons_of_ne {c : Char} (h : c ≠ '<') (rest : List Char) :
    pieces ('<' :: c :: rest) = .plain '<' :: pieces (c :: rest) := by
  rw [pieces]
  rintro rest' - hr
  exact h (List.cons_eq_cons.mp hr).1

/-- No reference begins with three brackets. -/
theorem opened?_of_bracket (rest : List Char) : opened? ('<' :: rest) = none := by
  cases ho : opened? ('<' :: rest) with
  | none => rfl
  | some x =>
    obtain ⟨piece, after, hlt⟩ := x
    obtain ⟨inner, name, hs, hn, -⟩ := opened?_eq_some_iff.mp ho
    have he := eq_of_splitClose? hs
    cases inner with
    | nil => cases he
    | cons c inner =>
      rw [List.cons_append, List.cons_eq_cons] at he
      rw [← he.1, innerName?_of_bracket] at hn
      cases hn

/-- The first two of three brackets are plain. -/
theorem pieces_three_brackets (rest : List Char) :
    pieces ('<' :: '<' :: '<' :: rest) =
      .plain '<' :: .plain '<' :: pieces ('<' :: rest) := by
  rw [pieces, opened?_of_bracket]

/-- An even number of brackets in front of another one is plain. -/
theorem pieces_even_run {n : Nat} (hn : Even n) (rest : List Char) :
    pieces (List.replicate n '<' ++ '<' :: rest) =
      (List.replicate n '<').map .plain ++ pieces ('<' :: rest) := by
  obtain ⟨k, rfl⟩ := even_iff_exists_two_mul.mp hn
  clear hn
  induction k with
  | zero => rfl
  | succ k ih =>
    have hr : List.replicate (2 * k) '<' ++ '<' :: rest =
        '<' :: (List.replicate (2 * k) '<' ++ rest) := by
      rw [← List.cons_append, ← List.replicate_succ, List.replicate_succ', List.append_assoc]
      rfl
    have hs : List.replicate (2 * (k + 1)) '<' = '<' :: '<' :: List.replicate (2 * k) '<' := rfl
    rw [hs, List.cons_append, List.cons_append, hr, pieces_three_brackets, ← hr, ih]
    rfl

/-- How the scan of a text in two parts comes through the first one: to its end, or by a reference
that begins in it and reaches into the second. -/
inductive ScansTo (cs rest : List Char) : Prop
  | comes (ps : List Piece) (hps : pieces (cs ++ rest) = ps ++ pieces rest)
  | crosses (ps : List Piece) (ds es name after : List Char)
    (hps : pieces (cs ++ rest) = ps ++ .reference (ds ++ es) name :: pieces after)
    (hcs : cs = ps.flatMap Piece.written ++ ds) (hds : ds ≠ []) (hrest : rest = es ++ after)
    (hes : ['>', '>'] <:+ es)

/-- The scan comes through more text in front that it has got behind. -/
theorem ScansTo.prepend {cs rest : List Char} (h : ScansTo cs rest) (bs : List Char)
    (qs : List Piece) (hqs : pieces (bs ++ (cs ++ rest)) = qs ++ pieces (cs ++ rest)) :
    ScansTo (bs ++ cs) rest := by
  have hbs := eq_written_of_pieces hqs
  cases h with
  | comes ps hps => exact .comes (qs ++ ps) (by rw [List.append_assoc, hqs, hps, List.append_assoc])
  | crosses ps ds es name after hps hcs hds hrest hes =>
    refine .crosses (qs ++ ps) ds es name after ?_ ?_ hds hrest hes
    · rw [List.append_assoc, hqs, hps, List.append_assoc]
    · rw [hcs, List.flatMap_append, ← hbs, List.append_assoc]

/-- Where one of two cuts through a text falls: before the character behind the other, or after. -/
theorem append_eq_append_cons {as bs cs ds : List Char} {c : Char}
    (h : as ++ bs = cs ++ c :: ds) :
    (∃ es, cs = as ++ es ∧ bs = es ++ c :: ds) ∨ ∃ es, as = cs ++ c :: es ∧ ds = es ++ bs := by
  rcases List.append_eq_append_iff.mp h with ⟨es, hc, hb⟩ | ⟨es, ha, hd⟩
  · exact .inl ⟨es, hc, hb⟩
  · cases es with
    | nil => exact .inl ⟨[], by rw [ha, List.append_nil, List.append_nil], hd.symm⟩
    | cons e es =>
      obtain ⟨rfl, rfl⟩ := List.cons_eq_cons.mp hd
      exact .inr ⟨es, ha, rfl⟩

/-- A pair of closing brackets that ends a text ends each part of it that begins with something
else. -/
theorem close_suffix {c : Char} (hc : c ≠ '>') {cs ds inner : List Char}
    (h : inner ++ ['>', '>'] = cs ++ c :: ds) : ['>', '>'] <:+ c :: ds := by
  have hds : c :: ds <:+ inner ++ ['>', '>'] := h ▸ List.suffix_append cs _
  rcases List.suffix_or_suffix_of_suffix (List.suffix_append inner ['>', '>']) hds with hs | hs
  · exact hs
  · have hm := hs.subset List.mem_cons_self
    simp [hc] at hm

theorem getLast?_ne_of_append {c : Char} (bs : List Char) {cs : List Char}
    (h : (bs ++ cs).getLast? ≠ some c) : cs.getLast? ≠ some c := by
  cases cs with
  | nil => nofun
  | cons d cs => rwa [List.getLast?_append_of_ne_nil _ (List.cons_ne_nil d cs)] at h

/-- The scan comes through every text that does not end in a bracket, up to a bracket behind it. -/
theorem scansTo_bracket : ∀ {cs : List Char}, cs.getLast? ≠ some '<' → ∀ rest : List Char,
    ScansTo cs ('<' :: rest)
  | [], _, _ => .comes [] rfl
  | [c], h, _ => by
    have hc : c ≠ '<' := fun he => h (by rw [he]; rfl)
    exact .comes [.plain c] (pieces_cons_of_ne hc _)
  | c :: d :: cs, h, rest => by
    by_cases hb : c = '<' ∧ d = '<'
    · obtain ⟨rfl, rfl⟩ := hb
      cases ho : opened? (cs ++ '<' :: rest) with
      | none =>
        have hp : pieces ('<' :: '<' :: (cs ++ '<' :: rest)) =
            [.plain '<', .plain '<'] ++ pieces (cs ++ '<' :: rest) := by
          rw [pieces, ho]
          rfl
        have hcs := getLast?_ne_of_append ['<', '<'] h
        exact (scansTo_bracket hcs rest).prepend ['<', '<'] _ hp
      | some x =>
        obtain ⟨piece, after, hlt⟩ := x
        obtain ⟨inner, name, hs, hn, -⟩ := opened?_eq_some_iff.mp ho
        have hp : pieces ('<' :: '<' :: (cs ++ '<' :: rest)) =
            .reference ('<' :: '<' :: (inner ++ ['>', '>'])) name :: pieces after :=
          pieces_of_split hs hn
        have he : (inner ++ ['>', '>']) ++ after = cs ++ '<' :: rest := by
          rw [eq_of_splitClose? hs, List.append_assoc]
          rfl
        -- The reference that is opened ends in the text, or it takes the bracket behind it along.
        rcases append_eq_append_cons he with ⟨ds, rfl, rfl⟩ | ⟨es, hi, rfl⟩
        · have hds := getLast?_ne_of_append ('<' :: '<' :: (inner ++ ['>', '>'])) h
          rw [List.append_assoc (inner ++ _)] at hp
          exact (scansTo_bracket hds rest).prepend ('<' :: '<' :: (inner ++ ['>', '>'])) [_] hp
        · rw [hi] at hp
          exact .crosses [] ('<' :: '<' :: cs) ('<' :: es) name after hp rfl (List.cons_ne_nil _ _)
            rfl (close_suffix (by decide) hi)
    · have hp : pieces (c :: (d :: cs ++ '<' :: rest)) =
          .plain c :: pieces (d :: cs ++ '<' :: rest) := by
        by_cases hc : c = '<'
        · rw [hc]
          exact pieces_cons_cons_of_ne (fun hd => hb ⟨hc, hd⟩) _
        · exact pieces_cons_of_ne hc _
      have hcs := getLast?_ne_of_append [c] h
      exact (scansTo_bracket hcs rest).prepend [c] [_] hp
termination_by cs => cs.length

/-! ## Mentions -/

/-- A reference to a parameter as it can be written: there may be blanks on both sides of the name's
marker and the name. -/
structure Mention where
  left : List Char
  name : List Char
  right : List Char
  left_blank : ∀ c ∈ left, isBlank c = true
  right_blank : ∀ c ∈ right, isBlank c = true
  named : isName name = true

namespace Mention

variable (m : Mention)

/-- What stands between the brackets. -/
def inner : List Char :=
  m.left ++ (marker ++ m.name) ++ m.right

/-- The reference with its brackets. -/
def written : List Char :=
  '<' :: '<' :: m.inner ++ ['>', '>']

theorem inner_ne_nil : m.inner ≠ [] := by
  have hm : marker ≠ [] := by decide
  simp [inner, hm]

theorem innerName?_inner : innerName? m.inner = some m.name := by
  obtain ⟨hne, hb⟩ := isName_iff.mp m.named
  have hr : trimRight (marker ++ m.name) = marker ++ m.name := by
    have hn : m.name = m.name.dropLast ++ [m.name.getLast hne] :=
      (List.dropLast_append_getLast hne).symm
    rw [hn, ← List.append_assoc]
    exact trimRight_of_not_blank (hb _ (List.getLast_mem hne)) _
  have ht : trim m.inner = marker ++ m.name :=
    trim_blanks_around m.left_blank m.right_blank (c := 'p') (by decide) hr
  have hp : marker.isPrefixOf (marker ++ m.name) = true :=
    List.isPrefixOf_iff_prefix.mpr (List.prefix_append _ _)
  simp only [innerName?, ht, hp, if_true, List.drop_left, m.named]

/-- A mention whose inside holds no pair of closing brackets is a reference wherever the scan comes
to it. -/
theorem pieces_append (h : ¬ ['>', '>'] <:+: m.inner ++ ['>']) (after : List Char) :
    pieces (m.written ++ after) = .reference m.written m.name :: pieces after := by
  have hs : splitClose? (m.inner ++ '>' :: '>' :: after) = some (m.inner, after) :=
    splitClose?_eq_some_iff.mpr ⟨rfl, h⟩
  have hw : m.written ++ after = '<' :: '<' :: (m.inner ++ '>' :: '>' :: after) := by
    rw [written, List.append_assoc]
    rfl
  rw [hw, pieces_of_split hs m.innerName?_inner]
  rfl

/-! ### Brackets in front -/

variable {m}

theorem bracket_notMem_inner (h : '<' ∉ m.name) : '<' ∉ m.inner := by
  have hl : '<' ∉ m.left := fun hc => ne_bracket_of_isBlank (m.left_blank _ hc) rfl
  have hr : '<' ∉ m.right := fun hc => ne_bracket_of_isBlank (m.right_blank _ hc) rfl
  have hm : '<' ∉ marker := by decide
  simp [inner, hl, hr, hm, h]

theorem ne_close_of_isBlank {c : Char} (h : isBlank c = true) : c ≠ '>' := by
  rintro rfl
  exact absurd h (by decide)

theorem close_notMem_left (m : Mention) : '>' ∉ m.left :=
  fun hc => ne_close_of_isBlank (m.left_blank _ hc) rfl

theorem close_notMem_right (m : Mention) : '>' ∉ m.right :=
  fun hc => ne_close_of_isBlank (m.right_blank _ hc) rfl

theorem close_notMem_inner (h : '>' ∉ m.name) : '>' ∉ m.inner := by
  have hm : '>' ∉ marker := by decide
  simp [inner, m.close_notMem_left, m.close_notMem_right, hm, h]

theorem written_append (m : Mention) (after : List Char) :
    m.written ++ after = '<' :: '<' :: (m.inner ++ '>' :: '>' :: after) := by
  rw [written, List.append_assoc]
  rfl

/-- A mention behind an even number of brackets is a reference. -/
theorem pieces_of_even (hgt : '>' ∉ m.name) {n : Nat} (hn : Even n) (after : List Char) :
    pieces (List.replicate n '<' ++ (m.written ++ after)) =
      (List.replicate n '<').map .plain ++ .reference m.written m.name :: pieces after := by
  rw [written_append, pieces_even_run hn, ← written_append,
    m.pieces_append (close_notInfix (close_notMem_inner hgt))]

/-- A mention behind an odd number of brackets is plain. -/
theorem pieces_of_odd (hlt : '<' ∉ m.name) {n : Nat} (hn : Odd n) (after : List Char) :
    pieces (List.replicate n '<' ++ (m.written ++ after)) =
      (List.replicate n '<' ++ m.written).map .plain ++ pieces after := by
  obtain ⟨k, rfl⟩ := hn
  have hin := bracket_notMem_inner hlt
  have hp : pieces ('<' :: (m.inner ++ '>' :: '>' :: after)) =
      ('<' :: m.inner ++ ['>', '>']).map .plain ++ pieces after := by
    have hcs : '<' ∉ m.inner ++ ['>', '>'] := by simp [hin]
    have hi : pieces (m.inner ++ '>' :: '>' :: after) =
        (m.inner ++ ['>', '>']).map .plain ++ pieces after := by
      rw [← pieces_append_of_notMem hcs, List.append_assoc]
      rfl
    -- The bracket that the mention has left is not followed by another one.
    cases he : m.inner with
    | nil => exact absurd he m.inner_ne_nil
    | cons c cs =>
      have hc : c ≠ '<' := fun hc => hin (by rw [he, hc]; exact List.mem_cons_self)
      rw [he] at hi
      rw [List.cons_append, pieces_cons_cons_of_ne hc, ← List.cons_append, hi]
      rfl
  rw [written_append, List.replicate_succ', List.append_assoc, List.singleton_append,
    pieces_even_run (even_two_mul k), pieces_three_brackets, hp, written]
  simp

/-! ### Text in front -/

/-- A reference that begins in front of a mention and of the brackets before it and reaches into
them ends with the mention or behind it: there are no other closing brackets. -/
theorem le_of_crosses (hgt : '>' ∉ m.name) {n : Nat} {after es after' : List Char}
    (he : List.replicate n '<' ++ (m.written ++ after) = es ++ after') (hes : ['>', '>'] <:+ es) :
    n + byteLength m.written ≤ byteLength es := by
  obtain ⟨ds, rfl⟩ := hes
  have hq : '>' ∉ List.replicate n '<' ++ '<' :: '<' :: m.inner := by
    have hr : '>' ∉ List.replicate n '<' := fun h => absurd (List.eq_of_mem_replicate h) (by decide)
    simp [hr, close_notMem_inner hgt]
  have he' : ds ++ '>' :: '>' :: after' =
      (List.replicate n '<' ++ '<' :: '<' :: m.inner) ++ '>' :: '>' :: after := by
    rw [written_append] at he
    simpa using he.symm
  have hle : byteLength (List.replicate n '<' ++ '<' :: '<' :: m.inner) ≤ byteLength ds := by
    rcases append_eq_append_cons he' with ⟨xs, hx, hy⟩ | ⟨xs, rfl, -⟩
    · cases xs with
      | nil => rw [hx, List.append_nil]
      | cons x xs =>
        rw [List.cons_append, List.cons_eq_cons] at hy
        exact absurd (hx ▸ List.mem_append_right _ (hy.1 ▸ List.mem_cons_self)) hq
    · rw [byteLength_append _ ('>' :: xs)]
      exact Nat.le_add_right _ _
  simp only [written, byteLength_append, byteLength_brackets, byteLength_cons] at hle ⊢
  omega

variable {cs : List Char} {n : Nat}

theorem scansTo_written (hcs : cs.getLast? ≠ some '<') (after : List Char) :
    ScansTo cs (List.replicate n '<' ++ (m.written ++ after)) := by
  have hr : ∃ rest, List.replicate n '<' ++ (m.written ++ after) = '<' :: rest := by
    cases n with
    | zero => exact ⟨_, m.written_append after⟩
    | succ n => exact ⟨_, rfl⟩
  obtain ⟨rest, hr⟩ := hr
  exact hr ▸ scansTo_bracket hcs rest

/-- Behind an even number of brackets a mention is found, unless a reference that begins before them
reaches into it. -/
theorem found_of_even (hgt : '>' ∉ m.name) (hcs : cs.getLast? ≠ some '<') (hn : Even n)
    (after : List Char) :
    ⟨byteLength cs + n, byteLength cs + n + byteLength m.written, String.ofList m.name⟩ ∈
      placeholdersFrom 0 (pieces (cs ++ (List.replicate n '<' ++ (m.written ++ after)))) ∨
    ∃ p ∈ placeholdersFrom 0 (pieces (cs ++ (List.replicate n '<' ++ (m.written ++ after)))),
      p.start < byteLength cs ∧ byteLength cs + n < p.stop := by
  cases m.scansTo_written (n := n) hcs after with
  | comes ps hps =>
    left
    have hw := eq_written_of_pieces hps
    rw [hps, placeholdersFrom_append, ← hw, pieces_of_even hgt hn, placeholdersFrom_append,
      written_plain, byteLength_brackets, Nat.zero_add]
    exact List.mem_append_right _ (List.mem_append_right _ List.mem_cons_self)
  | crosses ps ds es name after' hps hw hds hr hes =>
    right
    have hle := le_of_crosses hgt hr hes
    have hpos := byteLength_pos hds
    have hwritten : 0 < byteLength m.written := byteLength_pos (List.cons_ne_nil _ _)
    rw [hps, placeholdersFrom_append, Nat.zero_add]
    refine ⟨_, List.mem_append_right _ List.mem_cons_self, ?_, ?_⟩
    · rw [hw, byteLength_append]
      exact Nat.lt_add_of_pos_right hpos
    · rw [hw, byteLength_append, Piece.written, byteLength_append]
      dsimp only
      omega

/-- Behind an odd number of brackets a mention is met only by references that begin before them. -/
theorem start_lt_of_odd (hlt : '<' ∉ m.name) (hgt : '>' ∉ m.name) (hcs : cs.getLast? ≠ some '<')
    (hn : Odd n) (after : List Char) {p : Placeholder}
    (hp : p ∈ placeholdersFrom 0 (pieces (cs ++ (List.replicate n '<' ++ (m.written ++ after)))))
    (hstart : p.start < byteLength cs + n + byteLength m.written)
    (hstop : byteLength cs + n < p.stop) : p.start < byteLength cs := by
  cases m.scansTo_written (n := n) hcs after with
  | comes ps hps =>
    have hw := eq_written_of_pieces hps
    rw [hps, placeholdersFrom_append, ← hw, pieces_of_odd hlt hn, placeholdersFrom_append,
      placeholdersFrom_plain, written_plain, byteLength_append, byteLength_brackets,
      Nat.zero_add, List.nil_append] at hp
    rcases List.mem_append.mp hp with hp | hp
    · have hs := span_of_mem hp
      rw [← hw] at hs
      omega
    · have hs := span_of_mem hp
      omega
  | crosses ps ds es name after' hps hw hds hr hes =>
    have hle := le_of_crosses hgt hr hes
    have hpos := byteLength_pos hds
    have hlen := congrArg byteLength hw
    rw [byteLength_append] at hlen
    rw [hps, placeholdersFrom_append, Nat.zero_add] at hp
    rcases List.mem_append.mp hp with hp | hp
    · have hs := span_of_mem hp
      omega
    · rcases List.mem_cons.mp hp with rfl | hp
      · dsimp only
        omega
      · have hs := span_of_mem hp
        rw [Piece.written, byteLength_append] at hs
        omega

end Mention

/-! ## What is found of a mention -/

/-- How many opening brackets stand side by side at the end of a text. -/
def openRun (cs : List Char) : Nat :=
  (cs.rtakeWhile (· = '<')).length

/-- A text is what stands in front of the brackets at its end, and these. -/
theorem exists_openRun (before : List Char) :
    ∃ cs, before = cs ++ List.replicate (openRun before) '<' ∧ cs.getLast? ≠ some '<' := by
  let p : Char → Bool := fun c => c = '<'
  refine ⟨before.rdropWhile p, ?_, fun h => ?_⟩
  · have hr : before.rtakeWhile p = List.replicate (openRun before) '<' :=
      List.eq_replicate_of_mem fun c hc => of_decide_eq_true (List.mem_rtakeWhile_imp (p := p) hc)
    rw [← hr, List.rdropWhile_append_rtakeWhile]
  · have hne : before.rdropWhile p ≠ [] := fun he => by rw [he] at h; cases h
    have hl := List.rdropWhile_last_not p before hne
    rw [List.getLast?_eq_getLast_of_ne_nil hne, Option.some.injEq] at h
    exact hl (decide_eq_true h)

namespace Mention

/-- A mention in a text is found, or overlaps a reference that is, exactly if an even number of
opening brackets stands directly in front of it, or a reference that begins before these reaches
into it. Behind an even number, and not reached into, it is found itself, with its own name. -/
theorem covered_iff (m : Mention) (hlt : '<' ∉ m.name) (hgt : '>' ∉ m.name)
    (before after : List Char) :
    let text := String.ofList (before ++ m.written ++ after)
    let start := byteLength before
    let stop := start + byteLength m.written
    let reached := ∃ p ∈ placeholders text, p.start + openRun before < start ∧ start < p.stop
    ((∃ p ∈ placeholders text, p.start < stop ∧ start < p.stop) ↔
      Even (openRun before) ∨ reached) ∧
    (Even (openRun before) →
      ⟨start, stop, String.ofList m.name⟩ ∈ placeholders text ∨ reached) := by
  intro text start stop reached
  obtain ⟨cs, hb, hcs⟩ := exists_openRun before
  have hstart : start = byteLength cs + openRun before := by
    have hlen := congrArg byteLength hb
    rwa [byteLength_append, byteLength_brackets] at hlen
  have hpos : 0 < byteLength m.written := byteLength_pos (List.cons_ne_nil _ _)
  have htext : placeholders text = placeholdersFrom 0
      (pieces (cs ++ (List.replicate (openRun before) '<' ++ (m.written ++ after)))) := by
    rw [placeholders, String.toList_ofList, ← List.append_assoc cs, ← hb, List.append_assoc]
  have heven (hn : Even (openRun before)) :
      ⟨start, stop, String.ofList m.name⟩ ∈ placeholders text ∨ reached := by
    rcases found_of_even hgt hcs hn after with hp | ⟨p, hp, hps, hpe⟩
    · exact .inl (by rwa [htext, show stop = start + byteLength m.written from rfl, hstart])
    · exact .inr ⟨p, htext ▸ hp, by omega, by omega⟩
  refine ⟨⟨?_, ?_⟩, heven⟩
  · rintro ⟨p, hp, hps, hpe⟩
    rcases Nat.even_or_odd (openRun before) with hn | hn
    · exact .inl hn
    · have hlt := start_lt_of_odd hlt hgt hcs hn after (htext ▸ hp) (by omega) (by omega)
      exact .inr ⟨p, hp, by omega, hpe⟩
  · rintro (hn | ⟨p, hp, hps, hpe⟩)
    · rcases heven hn with hp | ⟨p, hp, hps, hpe⟩
      · exact ⟨_, hp, Nat.lt_add_of_pos_right hpos, Nat.lt_add_of_pos_right hpos⟩
      · exact ⟨p, hp, by omega, hpe⟩
    · exact ⟨p, hp, by omega, hpe⟩

/-- A third bracket in front of a mention hides it, though there is nothing else in the text. -/
theorem not_covered_odd :
    let m : Mention := ⟨[' '], ['a'], [' '],
      List.all_eq_true.mp rfl, List.all_eq_true.mp rfl, by decide⟩
    let before := ['<']
    let text := String.ofList (before ++ m.written ++ [])
    let start := byteLength before
    let stop := start + byteLength m.written
    ('<' ∉ m.name ∧ '>' ∉ m.name) ∧ text = "<<< parameters.a >>" ∧
      ¬ ∃ p ∈ placeholders text, p.start < stop ∧ start < p.stop := by
  intro m before text start stop
  have ht : placeholders text = [] := by decide +kernel
  refine ⟨by decide, by decide, ?_⟩
  rw [ht]
  rintro ⟨p, hp, -⟩
  cases hp

/-- A single bracket is in front of this mention, but a reference that began before takes it up. -/
theorem covered_iff_nested :
    let m : Mention := ⟨[], ['a'], [], nofun, nofun, by decide⟩
    let before := "<<parameters.x<".toList
    let text := String.ofList (before ++ m.written ++ [])
    let start := byteLength before
    let stop := start + byteLength m.written
    ('<' ∉ m.name ∧ '>' ∉ m.name) ∧ text = "<<parameters.x<<<parameters.a>>" ∧
      placeholders text = [⟨0, 31, "x<<<parameters.a"⟩] ∧ ¬ Even (openRun before) ∧
      ((∃ p ∈ placeholders text, p.start < stop ∧ start < p.stop) ↔ Even (openRun before) ∨
        ∃ p ∈ placeholders text, p.start + openRun before < start ∧ start < p.stop) := by
  intro m before text start stop
  have hm : '<' ∉ m.name ∧ '>' ∉ m.name := by decide
  have hrun : openRun before = 1 := by decide +kernel
  have hodd : ¬ Even (openRun before) := by
    rw [hrun]
    decide
  exact ⟨hm, by decide +kernel, by decide +kernel, hodd, (m.covered_iff hm.1 hm.2 before []).1⟩

end Mention

end JobConfig.Template

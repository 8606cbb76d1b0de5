import JobConfig.Yaml.Node
import JobConfig.Yaml.Write

/-!
# Plain scalars in one line

A document may be a plain scalar in one line: words with blanks between them (`PlainWords`), none of
which looks like a key, a comment or the beginning of something else. Spaces in front of it, blanks
behind it and a comment behind these (`LineRest`) are no part of it. The scanner reads it word by
word (`plainFrom_words`), and what is parsed is the scalar alone (`parse?_plainLine`).
-/

namespace JobConfig.Yaml

/-! ## Spots of a line -/

/-- The spots of a text that goes on in the first line in the given column. -/
def Spot.lineFrom (column : Nat) : List Char → List Spot
  | [] => []
  | c :: rest => ⟨c, 0, column, column⟩ :: Spot.lineFrom (column + 1) rest

/-- A character that a text may hold within a line. -/
def isInline (c : Char) : Bool := isAllowed c && !isBreak c

theorem Spot.listFrom_eq_lineFrom {cs : List Char} (h : ∀ c ∈ cs, isBreak c = false) (n : Nat) :
    Spot.listFrom 0 n n cs = Spot.lineFrom n cs := by
  induction cs generalizing n with
  | nil => rfl
  | cons c cs ih =>
    obtain ⟨hc, hcs⟩ := List.forall_mem_cons.mp h
    have hr : c ≠ '\r' := by
      rintro rfl
      cases hc
    rw [Spot.listFrom, hc, Spot.lineFrom, ih hcs]
    · rfl
    · exact fun _ hcr _ => hr hcr

@[simp] theorem Spot.length_lineFrom (n : Nat) (cs : List Char) :
    (Spot.lineFrom n cs).length = cs.length := by
  induction cs generalizing n with
  | nil => rfl
  | cons c cs ih => rw [Spot.lineFrom, List.length_cons, ih, List.length_cons]

theorem Spot.ofText?_eq_lineFrom {cs : List Char} (h : ∀ c ∈ cs, isInline c = true) :
    Spot.ofText? cs = some (Spot.lineFrom 0 cs) := by
  simp only [isInline, Bool.and_eq_true, Bool.not_eq_true'] at h
  rw [Spot.ofText?, if_pos (List.all_eq_true.mpr fun c hc => (h c hc).1),
    Spot.listFrom_eq_lineFrom fun c hc => (h c hc).2]

theorem separatorAhead_line (n : Nat) (cs : List Char) :
    separatorAhead (Spot.lineFrom n cs) = separatorNext cs := by
  cases cs <;> rfl

/-- Marks between documents begin in the first column. -/
theorem documentMarkAhead_line {c : Char} {n : Nat} {cs : List Char}
    (h : documentMarkAhead c (Spot.lineFrom n cs) = true) : n = 0 ∧ [c, c, c] <+: cs := by
  rcases cs with - | ⟨a, - | ⟨b, - | ⟨d, rest⟩⟩⟩
  all_goals simp [Spot.lineFrom, documentMarkAhead] at h
  obtain ⟨⟨⟨⟨hn, ha⟩, hb⟩, hd⟩, -⟩ := h
  exact ⟨hn, rest, by rw [ha, hb, hd]; rfl⟩

/-! ## Words -/

/-- A word of a plain scalar. A colon at its end would be that of a key, and a hash sign at its
beginning that of a comment. -/
structure IsWord (w : List Char) : Prop where
  ne_nil : w ≠ []
  shown : ∀ c ∈ w, isShown c = true ∧ isSeparator c = false
  getLast? : w.getLast? ≠ some ':'
  head? : w.head? ≠ some '#'

instance (w : List Char) : Decidable (IsWord w) :=
  decidable_of_iff (w ≠ [] ∧ (w.all fun c => isShown c && !isSeparator c) = true ∧
      w.getLast? ≠ some ':' ∧ w.head? ≠ some '#') <| by
    simp only [List.all_eq_true, Bool.and_eq_true, Bool.not_eq_true']
    exact ⟨fun ⟨hne, hs, hl, hh⟩ => ⟨hne, hs, hl, hh⟩, fun ⟨hne, hs, hl, hh⟩ => ⟨hne, hs, hl, hh⟩⟩

/-- Words with blanks between them. -/
inductive PlainWords : List Char → Prop
  | word {w : List Char} (h : IsWord w) : PlainWords w
  | append {w blanks cs : List Char} (h : IsWord w) (hne : blanks ≠ [])
    (hb : ∀ c ∈ blanks, isWhite c = true) (hcs : PlainWords cs) : PlainWords (w ++ (blanks ++ cs))

/-- A text that may stand in a line without quotes: words that do not begin like something else. -/
structure PlainLine (cs : List Char) : Prop where
  words : PlainWords cs
  begins : startsLikeIndicator cs = false

/-- A comment, or none. -/
inductive Comment : List Char → Prop
  | none : Comment []
  | hash {cs : List Char} (h : ∀ c ∈ cs, isInline c = true) : Comment ('#' :: cs)

/-- What may follow a scalar in its line: blanks, and behind them a comment. -/
inductive LineRest : List Char → Prop
  | mk {blanks comment : List Char} (hb : ∀ c ∈ blanks, isWhite c = true) (hc : Comment comment)
    (hs : comment ≠ [] → blanks ≠ []) : LineRest (blanks ++ comment)

/-! ## Between words -/

theorem isSeparator_of_isWhite {c : Char} (h : isWhite c = true) : isSeparator c = true := by
  rw [isSeparator, h, Bool.true_or]

theorem isBreak_of_isWhite {c : Char} (h : isWhite c = true) : isBreak c = false := by
  simp only [isWhite, Bool.or_eq_true, decide_eq_true_eq] at h
  rcases h with rfl | rfl <;> rfl

/-- Blanks are read up to what is none. -/
theorem Gap.scan_blanks {blanks rest : List Char} (hb : ∀ c ∈ blanks, isWhite c = true)
    (hr : ∀ c, rest.head? = some c → isSeparator c = false) (n : Nat) (before : List Char) :
    Gap.scan 0 ⟨before, []⟩ (Spot.lineFrom n (blanks ++ rest)) =
      some (⟨before ++ blanks, []⟩, Spot.lineFrom (n + blanks.length) rest) := by
  induction blanks generalizing n before with
  | nil =>
    rw [List.nil_append, List.append_nil]
    cases rest with
    | nil => rfl
    | cons c rest =>
      have hc := hr c rfl
      rw [isSeparator, Bool.or_eq_false_iff] at hc
      rw [Spot.lineFrom, Gap.scan, hc.1, hc.2]
      rfl
  | cons c blanks ih =>
    obtain ⟨hc, hb⟩ := List.forall_mem_cons.mp hb
    rw [List.cons_append, Spot.lineFrom, Gap.scan, isBreak_of_isWhite hc, hc]
    simp only [Bool.false_eq_true, if_false, if_true, Gap.endsLine, List.isEmpty_nil, Bool.not_true,
      Bool.not_false]
    rw [ih hb, List.append_assoc, List.singleton_append, List.length_cons, Nat.add_assoc,
      Nat.add_comm 1]

/-- A word is read up to a separator. -/
theorem plainWord_append {w rest : List Char} (hs : ∀ c ∈ w, isSeparator c = false)
    (hl : w.getLast? ≠ some ':') (hr : separatorNext rest = true) (n : Nat) :
    plainWord false (Spot.lineFrom n (w ++ rest)) =
      some (w, Spot.lineFrom (n + w.length) rest) := by
  induction w generalizing n with
  | nil =>
    cases rest with
    | nil => rfl
    | cons c rest =>
      rw [separatorNext] at hr
      simp [Spot.lineFrom, plainWord, hr]
  | cons c w ih =>
    obtain ⟨hc, hw⟩ := List.forall_mem_cons.mp hs
    -- A colon would be in front of a character of the word.
    have hcolon : ¬ (c = ':' ∧ separatorNext (w ++ rest) = true) := by
      rintro ⟨rfl, hn⟩
      cases w with
      | nil => exact hl rfl
      | cons d w =>
        have hd : isSeparator d = true := hn
        rw [hw d List.mem_cons_self] at hd
        cases hd
    have hl' : w.getLast? ≠ some ':' := by
      cases w with
      | nil => exact nofun
      | cons d w => rwa [List.getLast?_cons_cons] at hl
    rw [List.cons_append, Spot.lineFrom, plainWord.eq_def]
    simp only [hc, separatorAhead_line, Bool.false_eq_true, if_false, Bool.false_and]
    rw [if_neg (by simpa using hcolon), ih hw hl', List.length_cons, Nat.add_right_comm]
    rfl

theorem LineRest.separatorNext {rest : List Char} (h : LineRest rest) :
    separatorNext rest = true := by
  obtain @⟨blanks, comment, hb, hc, hs⟩ := h
  cases blanks with
  | nil =>
    cases hc with
    | none => rfl
    | hash => exact absurd rfl (hs nofun)
  | cons c blanks => exact isSeparator_of_isWhite (hb c List.mem_cons_self)

/-! ## Word by word -/

theorem documentBoundary_of_ne_zero {n : Nat} (hn : n ≠ 0) (cs : List Char) :
    documentBoundary (Spot.lineFrom n cs) = false := by
  rw [documentBoundary, Bool.or_eq_false_iff]
  exact ⟨Bool.eq_false_iff.mpr fun h => hn (documentMarkAhead_line h).1,
    Bool.eq_false_iff.mpr fun h => hn (documentMarkAhead_line h).1⟩

/-- How a word begins. -/
theorem IsWord.exists_cons {w : List Char} (h : IsWord w) : ∃ c w', w = c :: w' ∧
    isShown c = true ∧ isSeparator c = false ∧ c ≠ '#' := by
  obtain ⟨c, w', rfl⟩ := List.exists_cons_of_ne_nil h.ne_nil
  obtain ⟨hs, hc⟩ := h.shown c List.mem_cons_self
  exact ⟨c, w', rfl, hs, hc, fun hc => h.head? (congrArg some hc)⟩

theorem PlainWords.exists_cons {cs : List Char} (h : PlainWords cs) : ∃ c cs', cs = c :: cs' ∧
    isShown c = true ∧ isSeparator c = false ∧ c ≠ '#' := by
  cases h with
  | word h => exact h.exists_cons
  | append h =>
    obtain ⟨c, w', rfl, hc⟩ := h.exists_cons
    exact ⟨c, _, rfl, hc⟩

/-- A word and the blanks behind it are read in one step. -/
theorem plainFrom_word {w blanks rest : List Char} (hw : IsWord w)
    (hb : ∀ c ∈ blanks, isWhite c = true) (hr : ∀ c, rest.head? = some c → isSeparator c = false)
    (hs : rest ≠ [] → blanks ≠ []) {n : Nat}
    (hd : documentBoundary (Spot.lineFrom n (w ++ (blanks ++ rest))) = false)
    (fuel : Nat) (before : List Char) (gap : Gap) :
    plainFrom false 0 (fuel + 1) before gap (Spot.lineFrom n (w ++ (blanks ++ rest))) =
      if rest = [] then some ⟨before ++ gap.text ++ w, false, []⟩
      else plainFrom false 0 fuel (before ++ gap.text ++ w) ⟨blanks, []⟩
        (Spot.lineFrom (n + w.length + blanks.length) rest) := by
  have hhash : charAhead '#' (Spot.lineFrom n (w ++ (blanks ++ rest))) = false := by
    obtain ⟨c, w', rfl, -, -, hc⟩ := hw.exists_cons
    exact decide_eq_false hc
  have hnext : separatorNext (blanks ++ rest) = true := by
    cases blanks with
    | nil =>
      cases rest with
      | nil => rfl
      | cons c rest => exact absurd rfl (hs nofun)
    | cons c blanks => exact isSeparator_of_isWhite (hb c List.mem_cons_self)
  have hword := plainWord_append (fun c hc => (hw.shown c hc).2) hw.getLast? hnext n
  have hgap := Gap.scan_blanks hb hr (n + w.length) []
  have hne : w.isEmpty = false := List.isEmpty_eq_false_iff.mpr hw.ne_nil
  have hbelow (spots : List Spot) : columnBelow 0 spots = false := by
    cases spots <;> simp [columnBelow]
  rw [plainFrom, hd, hhash, hword]
  simp only [Bool.or_false, Bool.false_eq_true, if_false, Option.bind_eq_bind, Option.bind_some,
    hne, Gap.none, hgap, List.nil_append, hbelow, Bool.and_false]
  cases rest with
  | nil => rfl
  | cons c rest =>
    have hblanks : (⟨blanks, []⟩ : Gap) ≠ ⟨[], []⟩ := fun h => hs nofun (Gap.mk.inj h).1
    simp [Spot.lineFrom, hblanks]

/-- A comment ends the scalar. -/
theorem plainFrom_comment (fuel n : Nat) (before blanks cs : List Char) :
    plainFrom false 0 (fuel + 1) before ⟨blanks, []⟩ (Spot.lineFrom n ('#' :: cs)) =
      some ⟨before, false, Spot.lineFrom n ('#' :: cs)⟩ := by
  simp [plainFrom, Spot.lineFrom, charAhead, Gap.endsLine]

/-- Behind the last word the scalar ends, at the comment if there is one. -/
theorem plainFrom_words {cs rest : List Char} (h : PlainWords cs) (hr : LineRest rest)
    {fuel n : Nat} (hf : cs.length + rest.length < fuel)
    (hd : documentBoundary (Spot.lineFrom n (cs ++ rest)) = false) (before : List Char)
    (gap : Gap) : ∃ m comment, Comment comment ∧
      plainFrom false 0 fuel before gap (Spot.lineFrom n (cs ++ rest)) =
        some ⟨before ++ gap.text ++ cs, false, Spot.lineFrom m comment⟩ := by
  obtain ⟨fuel, rfl⟩ := Nat.exists_eq_succ_of_ne_zero (Nat.ne_zero_of_lt hf)
  induction h generalizing fuel n before gap with
  | @word w hw =>
    obtain @⟨blanks, comment, hb, hc, hs⟩ := hr
    have hhead (c : Char) (h : comment.head? = some c) : isSeparator c = false := by
      cases hc with
      | none => cases h
      | hash => cases h; rfl
    rw [plainFrom_word hw hb hhead hs hd]
    cases hc with
    | none => exact ⟨0, [], .none, rfl⟩
    | @hash cs hcs =>
      obtain ⟨fuel, rfl⟩ : ∃ k, fuel = k + 1 := by
        refine Nat.exists_eq_succ_of_ne_zero ?_
        simp only [List.length_append, List.length_cons] at hf
        omega
      exact ⟨_, '#' :: cs, .hash hcs, plainFrom_comment ..⟩
  | @append w blanks cs hw hne hb hcs ih =>
    obtain ⟨c, cs', hcs', -, hsep, -⟩ := hcs.exists_cons
    have hhead (d : Char) (h : (cs ++ rest).head? = some d) : isSeparator d = false := by
      rw [hcs'] at h
      cases h
      exact hsep
    have hcons : cs ++ rest ≠ [] := by
      rw [hcs']
      exact nofun
    rw [List.append_assoc, List.append_assoc] at hd ⊢
    rw [plainFrom_word hw hb hhead (fun _ => hne) hd, if_neg hcons]
    have hpos := List.length_pos_iff.mpr hne
    simp only [List.length_append] at hf
    obtain ⟨fuel, rfl⟩ : ∃ k, fuel = k + 1 := Nat.exists_eq_succ_of_ne_zero (by omega)
    have hn : n + w.length + blanks.length ≠ 0 := by omega
    obtain ⟨m, comment, hc, hplain⟩ := ih (documentBoundary_of_ne_zero hn _)
      (before ++ gap.text ++ w) ⟨blanks, []⟩ fuel (by omega)
    refine ⟨m, comment, hc, hplain.trans ?_⟩
    simp [Gap.text, Gap.endsLine]

/-! ## The scalar of a line -/

theorem separatorNext_append {cs : List Char} (h : separatorNext cs = false) (rest : List Char) :
    separatorNext (cs ++ rest) = false := by
  cases cs with
  | nil => cases h
  | cons c cs => exact h

/-- How a text does not begin that begins like nothing else. -/
theorem startsLikeIndicator_cons_iff {c : Char} {cs : List Char} :
    startsLikeIndicator (c :: cs) = false ↔
      ¬ ['-', '-', '-'] <+: c :: cs ∧ ¬ ['.', '.', '.'] <+: c :: cs ∧
      c ∉ ['#', ',', '[', ']', '\x7b', '\x7d', '&', '*', '!', '|', '>', '\'', '"', '%', '@',
        '\x60'] ∧
      (c ∈ ['?', ':', '-'] → separatorNext cs = false) := by
  rw [startsLikeIndicator]
  simp only [Bool.or_eq_false_iff, decide_eq_false_iff_not, Bool.and_eq_false_imp,
    decide_eq_true_eq, and_assoc, ← List.isPrefixOf_iff_prefix, Bool.not_eq_true]

theorem LineRest.head?_ne {rest : List Char} (h : LineRest rest) {c : Char}
    (hc : isSeparator c = false) : rest.head? ≠ some c := by
  have hs := h.separatorNext
  cases rest with
  | nil => exact nofun
  | cons d rest =>
    intro hd
    cases hd
    exact absurd (hs.symm.trans hc) nofun

/-- What follows a text in its line makes no mark of its beginning. -/
theorem not_prefix_append {c : Char} {cs rest : List Char} (h : ¬ [c, c, c] <+: cs)
    (hr : rest.head? ≠ some c) : ¬ [c, c, c] <+: cs ++ rest := by
  intro hp
  rcases List.prefix_or_prefix_of_prefix hp (List.prefix_append cs rest) with h' | ⟨more, hm⟩
  · exact h h'
  · rw [← hm, List.prefix_append_right_inj] at hp
    cases more with
    | nil => exact h ⟨[], by rw [List.append_nil, ← hm, List.append_nil]⟩
    | cons d more =>
      have hd : d ∈ [c, c, c] := hm ▸ List.mem_append_right _ List.mem_cons_self
      have hdc : d = c := by simpa using hd
      obtain ⟨back, rfl⟩ := hp
      exact hr (congrArg some hdc)

theorem documentBoundary_plainLine {cs rest : List Char} (h : PlainLine cs) (hr : LineRest rest)
    (n : Nat) : documentBoundary (Spot.lineFrom n (cs ++ rest)) = false := by
  obtain ⟨c, cs', rfl, -⟩ := h.words.exists_cons
  obtain ⟨hdash, hdot, -⟩ := startsLikeIndicator_cons_iff.mp h.begins
  rw [documentBoundary, Bool.or_eq_false_iff]
  refine ⟨Bool.eq_false_iff.mpr fun hm => ?_, Bool.eq_false_iff.mpr fun hm => ?_⟩
  · exact not_prefix_append hdash (hr.head?_ne rfl) (documentMarkAhead_line hm).2
  · exact not_prefix_append hdot (hr.head?_ne rfl) (documentMarkAhead_line hm).2

theorem scanPlain_plainLine {cs rest : List Char} (h : PlainLine cs) (hr : LineRest rest)
    (n : Nat) : ∃ m comment, Comment comment ∧
      scanPlain false 0 (Spot.lineFrom n (cs ++ rest)) =
        some ⟨cs, false, Spot.lineFrom m comment⟩ := by
  have hf : cs.length + rest.length < (Spot.lineFrom n (cs ++ rest)).length + 1 := by
    rw [Spot.length_lineFrom, List.length_append]
    exact Nat.lt_succ_self _
  exact plainFrom_words h.words hr hf (documentBoundary_plainLine h hr n) [] .none

/-- At its first character the token is read as a plain scalar. -/
theorem Scanner.token_eq_plain (st : Scanner) (hflow : st.inFlow = false) {c : Char}
    {cs rest : List Char} (h : PlainLine (c :: cs)) (hr : LineRest rest) (n : Nat) :
    st.token ⟨c, 0, n, n⟩ (Spot.lineFrom (n + 1) (cs ++ rest)) = st.plain ⟨c, 0, n, n⟩ := by
  obtain ⟨d, cs', hd, -, hsep, -⟩ := h.words.exists_cons
  cases hd
  obtain ⟨-, -, hc, hmark⟩ := startsLikeIndicator_cons_iff.mp h.begins
  obtain ⟨hdash, hdot⟩ := Bool.or_eq_false_iff.mp (documentBoundary_plainLine h hr n)
  simp only [List.mem_cons, List.not_mem_nil, or_false, not_or] at hc hmark
  simp only [List.cons_append, Spot.lineFrom] at hdash hdot
  rw [Scanner.token]
  -- The marks of items, keys and values count only in front of a separator.
  by_cases hm : c = '?' ∨ c = ':' ∨ c = '-'
  · have hahead : separatorAhead (Spot.lineFrom (n + 1) (cs ++ rest)) = false := by
      rw [separatorAhead_line, separatorNext_append (hmark hm)]
    have hbegins : beginsPlain false ⟨c, 0, n, n⟩ (Spot.lineFrom (n + 1) (cs ++ rest)) = true := by
      have hblank : ((Spot.lineFrom (n + 1) (cs ++ rest)).head?.any fun s => isWhite s.char) =
          false := by
        cases hs : Spot.lineFrom (n + 1) (cs ++ rest) with
        | nil => rfl
        | cons s spots =>
          rw [hs] at hahead
          exact (Bool.or_eq_false_iff.mp hahead).1
      rw [beginsPlain, hblank, hahead]
      rcases hm with rfl | rfl | rfl <;> rfl
    simp [hflow, hdash, hdot, hc, hahead, hbegins]
  · simp only [not_or] at hm
    have hbegins : beginsPlain false ⟨c, 0, n, n⟩ (Spot.lineFrom (n + 1) (cs ++ rest)) = true := by
      simp [beginsPlain, isIndicator, isFlowIndicator, hsep, hc, hm]
    simp [hflow, hdash, hdot, hc, hm, hbegins]

/-! ## Scanning -/

theorem skipGap_spaces (allowed : Bool) (k n : Nat) (cs : List Char) :
    Scanner.skipGap false allowed false (Spot.lineFrom n (List.replicate k ' ' ++ cs)) =
      Scanner.skipGap false allowed false (Spot.lineFrom (n + k) cs) := by
  induction k generalizing n with
  | zero => rfl
  | succ k ih =>
    have h := ih (n + 1)
    rw [Nat.add_assoc, Nat.add_comm 1] at h
    exact h

/-- The first character of a word is in no gap. -/
theorem skipGap_plainLine {cs : List Char} (h : PlainLine cs) (allowed : Bool) (n : Nat)
    (rest : List Char) : Scanner.skipGap false allowed false (Spot.lineFrom n (cs ++ rest)) =
      (allowed, Spot.lineFrom n (cs ++ rest)) := by
  obtain ⟨c, cs', rfl, hshown, hsep, hhash⟩ := h.words.exists_cons
  have hmark : c ≠ '\ufeff' := by
    rintro rfl
    cases hshown
  simp only [isSeparator, isWhite, Bool.or_eq_false_iff, decide_eq_false_iff_not] at hsep
  obtain ⟨⟨hspace, htab⟩, hbreak⟩ := hsep
  simp [Spot.lineFrom, Scanner.skipGap, hbreak, hspace, htab, hmark, hhash]

theorem skipGap_comment {comment : List Char} (h : Comment comment) (allowed : Bool) (n : Nat) :
    Scanner.skipGap false allowed false (Spot.lineFrom n comment) = (allowed, []) := by
  have hin {cs : List Char} (hcs : ∀ c ∈ cs, isInline c = true) (n : Nat) :
      Scanner.skipGap false allowed true (Spot.lineFrom n cs) = (allowed, []) := by
    induction cs generalizing n with
    | nil => rfl
    | cons c cs ih =>
      obtain ⟨hc, hcs⟩ := List.forall_mem_cons.mp hcs
      have hb : isBreak c = false := by
        rw [isInline, Bool.and_eq_true, Bool.not_eq_true'] at hc
        exact hc.2
      rw [Spot.lineFrom, Scanner.skipGap, hb]
      exact ih hcs (n + 1)
  cases h with
  | none => rfl
  | hash h => exact hin h (n + 1)

theorem isInline_of_isWhite {c : Char} (h : isWhite c = true) : isInline c = true := by
  simp only [isWhite, Bool.or_eq_true, decide_eq_true_eq] at h
  rcases h with rfl | rfl <;> rfl

theorem isInline_of_isShown {c : Char} (h : isShown c = true) (hs : isSeparator c = false) :
    isInline c = true := by
  have ha : isAllowed c = true := by
    simp only [isShown, isAllowed, Bool.or_eq_true, Bool.and_eq_true, decide_eq_true_eq] at h ⊢
    omega
  rw [isInline, ha, (Bool.or_eq_false_iff.mp hs).2]
  rfl

theorem PlainWords.inline {cs : List Char} (h : PlainWords cs) : ∀ c ∈ cs, isInline c = true := by
  have hword {w : List Char} (hw : IsWord w) : ∀ c ∈ w, isInline c = true := fun c hc =>
    isInline_of_isShown (hw.shown c hc).1 (hw.shown c hc).2
  induction h with
  | word hw => exact hword hw
  | append hw hne hb hcs ih =>
    refine List.forall_mem_append.mpr ⟨hword hw, List.forall_mem_append.mpr ⟨?_, ih⟩⟩
    exact fun c hc => isInline_of_isWhite (hb c hc)

theorem LineRest.inline {rest : List Char} (h : LineRest rest) : ∀ c ∈ rest, isInline c = true := by
  obtain @⟨blanks, comment, hb, hc, -⟩ := h
  refine List.forall_mem_append.mpr ⟨fun c hc => isInline_of_isWhite (hb c hc), ?_⟩
  cases hc with
  | none => exact List.forall_mem_nil _
  | hash h => exact List.forall_mem_cons.mpr ⟨rfl, h⟩

/-- At the first word of a line its scalar is read, which might have been a key. -/
theorem Scanner.run_plainLine {c : Char} {cs rest : List Char} (h : PlainLine (c :: cs))
    (hr : LineRest rest) (n fuel : Nat) : ∃ m comment, Comment comment ∧
      Scanner.run (fuel + 1) (.start (Spot.lineFrom n (c :: cs ++ rest))) =
        Scanner.run fuel ⟨Spot.lineFrom m comment, [.scalar .plain (String.ofList (c :: cs))], [],
          false, some ⟨0, false, ⟨c, 0, n, n⟩⟩, []⟩ := by
  obtain ⟨m, comment, hc, hscan⟩ := scanPlain_plainLine h hr n
  refine ⟨m, comment, hc, ?_⟩
  let st := Scanner.start (Spot.lineFrom n (c :: cs ++ rest))
  have hskip : st.skip = st := by
    have hgap := skipGap_plainLine h true n rest
    simp only [st, Scanner.start, Scanner.skip, Scanner.inFlow, List.isEmpty_nil, Bool.not_true,
      hgap]
  have htoken := st.token_eq_plain rfl h hr n
  rw [Scanner.run, hskip]
  simp only [st, Scanner.start, List.cons_append, Spot.lineFrom] at htoken hscan ⊢
  simp [Scanner.forgetStale, Scanner.closeTo, Scanner.close, Scanner.inFlow, Scanner.deeper, htoken,
    Scanner.plain, Scanner.saveKey, Scanner.dropKey, Scanner.base, Scanner.emitAt, hscan]

/-- Spaces in front of a line make no difference but to the columns. -/
theorem Scanner.run_spaces (k : Nat) (cs : List Char) (fuel : Nat) :
    Scanner.run fuel (.start (Spot.lineFrom 0 (List.replicate k ' ' ++ cs))) =
      Scanner.run fuel (.start (Spot.lineFrom k cs)) := by
  have hskip : (Scanner.start (Spot.lineFrom 0 (List.replicate k ' ' ++ cs))).skip =
      (Scanner.start (Spot.lineFrom k cs)).skip := by
    have hgap := skipGap_spaces true k 0 cs
    rw [Nat.zero_add] at hgap
    simp only [Scanner.skip, Scanner.start, Scanner.inFlow, List.isEmpty_nil, Bool.not_true, hgap]
  cases fuel with
  | zero => rfl
  | succ fuel => rw [Scanner.run, hskip, Scanner.run]

/-- At the end of a line there are no more tokens. -/
theorem Scanner.run_comment {comment : List Char} (h : Comment comment) (m fuel : Nat)
    (ts : List Token) (s : Spot) :
    Scanner.run (fuel + 1) ⟨Spot.lineFrom m comment, ts, [], false, some ⟨0, false, s⟩, []⟩ =
      some ts := by
  have hskip : Scanner.skip ⟨Spot.lineFrom m comment, ts, [], false, some ⟨0, false, s⟩, []⟩ =
      ⟨[], ts, [], false, some ⟨0, false, s⟩, []⟩ := by
    simp only [Scanner.skip, Scanner.inFlow, List.isEmpty_nil, Bool.not_true, skipGap_comment h]
  rw [Scanner.run, hskip]
  simp [Scanner.closeAll, Scanner.inFlow, Scanner.close, Scanner.dropKey]

/-- The tokens of a line are its scalar. -/
theorem scan?_plainLine {cs rest : List Char} (h : PlainLine cs) (hr : LineRest rest) (k : Nat) :
    Token.scan? (List.replicate k ' ' ++ (cs ++ rest)) =
      some [.scalar .plain (String.ofList cs)] := by
  have hin : ∀ c ∈ List.replicate k ' ' ++ (cs ++ rest), isInline c = true := by
    refine List.forall_mem_append.mpr ⟨fun c hc => ?_, ?_⟩
    · rw [List.eq_of_mem_replicate hc]
      rfl
    · exact List.forall_mem_append.mpr ⟨h.words.inline, hr.inline⟩
  obtain ⟨c, cs', rfl, -⟩ := h.words.exists_cons
  have hlen : (List.replicate k ' ' ++ (c :: cs' ++ rest)).length =
      (k + (cs' ++ rest).length) + 1 := by
    rw [List.length_append, List.length_replicate, List.cons_append, List.length_cons]
    rfl
  obtain ⟨m, comment, hc, hrun⟩ := Scanner.run_plainLine h hr k (k + (cs' ++ rest).length + 1)
  rw [Token.scan?, Spot.ofText?_eq_lineFrom hin, Option.bind_eq_bind, Option.bind_some,
    Spot.length_lineFrom, Scanner.run_spaces, hlen, hrun, Scanner.run_comment hc]

/-- A plain scalar in one line is a document, whatever surrounds it in the line. -/
theorem parse?_plainLine {cs rest : List Char} (h : PlainLine cs) (hr : LineRest rest) (k : Nat) :
    Document.parse? (String.ofList (List.replicate k ' ' ++ (cs ++ rest))) =
      some ⟨.scalar none .plain (String.ofList cs), .none⟩ := by
  rw [Document.parse?, String.toList_ofList, scan?_plainLine h hr k]
  rfl

end JobConfig.Yaml

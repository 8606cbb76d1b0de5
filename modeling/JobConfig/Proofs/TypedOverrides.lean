import JobConfig.Proofs.Literals
import JobConfig.Proofs.Overrides

/-!
# Flags and integers on the command line

The text of an integer is its digits, with a minus sign in front if it is negative. Read again the
digits are the number (`digits?_decimalDigits`), and only zero begins with a zero, so the text has
neither a base nor a leading zero (`Yaml.integer?_intText`). It is a plain scalar in one line
(`Yaml.plainLine_intText`), which stands for the integer as far as 64 bits with sign hold it. Beyond
it stands for an integer or a float that is no literal, or for a text, which is then the text of the
integer itself. So an override gets back the flag or the integer whose text is its value, and the
text where there is no such integer (`CommandLine.readOverride_typed`).
-/

namespace JobConfig

/-! ## Decimal texts -/

theorem isDigit_of_mem_decimalDigits {n : Nat} {c : Char} (h : c ∈ decimalDigits n) :
    c.isDigit = true :=
  Nat.isDigit_of_mem_toDigits (by decide) (by decide) h

theorem exists_decimalDigits_eq_cons (n : Nat) :
    ∃ d ds, decimalDigits n = d :: ds ∧ d.isDigit = true := by
  obtain ⟨d, ds, h⟩ := List.exists_cons_of_ne_nil (Nat.toDigits_ne_nil (b := 10) (n := n))
  exact ⟨d, ds, h, isDigit_of_mem_decimalDigits (h ▸ List.mem_cons_self)⟩

/-- Only zero has zero for its first digit. -/
theorem eq_zero_of_decimalDigits {n : Nat} {rest : List Char}
    (h : decimalDigits n = '0' :: rest) : n = 0 := by
  rw [decimalDigits] at h
  induction n using Nat.base_induction 10 (by decide) generalizing rest with
  | single m hm =>
    rw [Nat.toDigits_of_lt_base hm] at h
    exact Nat.digitChar_eq_zero.mp (List.cons.inj h).1
  | digit m k hk hm ih =>
    rw [← Nat.toDigits_append_toDigits (by decide) hm hk] at h
    obtain ⟨d, ds, hd⟩ := List.exists_cons_of_ne_nil (Nat.toDigits_ne_nil (b := 10) (n := m))
    rw [hd, List.cons_append] at h
    cases h
    exact absurd (ih hd) (Nat.ne_of_gt hm)

theorem digitsFrom?_eq_ofDigitChars {cs : List Char} (h : ∀ c ∈ cs, c.isDigit = true)
    (before : Nat) : digitsFrom? 10 before cs = some (Nat.ofDigitChars 10 cs before) := by
  induction cs generalizing before with
  | nil => rfl
  | cons c cs ih =>
    obtain ⟨hc, hcs⟩ := List.forall_mem_cons.mp h
    have hv : digitValue? 10 c = some (c.toNat - 48) := by
      simp only [Char.isDigit, Bool.and_eq_true, decide_eq_true_eq] at hc
      have hle : '0' ≤ c ∧ c ≤ '9' := hc
      have hlt : c.toNat ≤ 57 := hc.2
      simp only [digitValue?, if_pos hle]
      exact if_pos (by omega)
    rw [digitsFrom?, hv, Option.bind_eq_bind, Option.bind_some, ih hcs, Nat.ofDigitChars_cons,
      Nat.mul_comm]
    rfl

theorem digits?_decimalDigits (n : Nat) : digits? 10 (decimalDigits n) = some n := by
  have hne : (decimalDigits n).isEmpty = false := List.isEmpty_eq_false_iff.mpr Nat.toDigits_ne_nil
  rw [digits?, hne, digitsFrom?_eq_ofDigitChars fun c => isDigit_of_mem_decimalDigits]
  exact congrArg some Nat.ofDigitChars_ten_toDigits

theorem toList_intText_of_neg {n : Int} (h : n < 0) :
    (intText n).toList = '-' :: decimalDigits n.natAbs := by
  rw [intText, if_pos h, String.toList_ofList]
  rfl

theorem toList_intText_of_nonneg {n : Int} (h : 0 ≤ n) :
    (intText n).toList = decimalDigits n.natAbs := by
  rw [intText, if_neg (Int.not_lt.mpr h), String.toList_ofList]
  rfl

theorem eq_or_isDigit_of_mem_intText {n : Int} {c : Char} (h : c ∈ (intText n).toList) :
    c = '-' ∨ c.isDigit = true := by
  rcases Int.lt_or_le n 0 with hneg | hnon
  · rw [toList_intText_of_neg hneg] at h
    exact (List.mem_cons.mp h).imp_right isDigit_of_mem_decimalDigits
  · rw [toList_intText_of_nonneg hnon] at h
    exact .inr (isDigit_of_mem_decimalDigits h)

theorem toList_intText_ne_nil (n : Int) : (intText n).toList ≠ [] := by
  rcases Int.lt_or_le n 0 with hneg | hnon
  · rw [toList_intText_of_neg hneg]
    exact nofun
  · rw [toList_intText_of_nonneg hnon]
    exact Nat.toDigits_ne_nil

/-- The text of an integer is none of some words that have another character each. -/
theorem intText_notMem {words : List String} (n : Int)
    (h : words.all (fun w => w.toList.any fun c => c ≠ '-' && !c.isDigit) = true) :
    intText n ∉ words := by
  intro hm
  obtain ⟨c, hc, hother⟩ := List.any_eq_true.mp (List.all_eq_true.mp h _ hm)
  rw [Bool.and_eq_true, decide_eq_true_eq, Bool.not_eq_true'] at hother
  rcases eq_or_isDigit_of_mem_intText hc with hs | hd
  · exact hother.1 hs
  · exact Bool.false_ne_true (hother.2.symm.trans hd)

namespace Yaml

/-! ## What the text of an integer stands for -/

theorem unsigned_decimalDigits (n : Nat) : unsigned (decimalDigits n) = decimalDigits n := by
  obtain ⟨d, ds, h, hd⟩ := exists_decimalDigits_eq_cons n
  rw [h]
  unfold unsigned
  split
  · rename_i he
    cases he
    cases hd
  · rename_i he
    cases he
    cases hd
  · rfl

theorem unsigned_intText (n : Int) : unsigned (intText n).toList = decimalDigits n.natAbs := by
  rcases Int.lt_or_le n 0 with hneg | hnon
  · rw [toList_intText_of_neg hneg]
    rfl
  · rw [toList_intText_of_nonneg hnon, unsigned_decimalDigits]

theorem hasLeadingZero_eq_false {cs : List Char} {n : Nat} (h : unsigned cs = decimalDigits n) :
    hasLeadingZero cs = false := by
  unfold hasLeadingZero
  rw [h]
  split
  · rename_i he
    cases eq_zero_of_decimalDigits he
    cases he
  · rfl

theorem natural?_decimalDigits (n : Nat) : natural? (decimalDigits n) = some n := by
  unfold natural?
  split
  iterate 3
    · rename_i he
      cases eq_zero_of_decimalDigits he
      cases he
  · rw [hasLeadingZero_eq_false (unsigned_decimalDigits n), digits?_decimalDigits]
    rfl

theorem integer?_intText (n : Int) : integer? (intText n).toList = some n := by
  rcases Int.lt_or_le n 0 with hneg | hnon
  · rw [toList_intText_of_neg hneg, integer?, natural?_decimalDigits]
    exact congrArg some (by omega : -(n.natAbs : Int) = n)
  · obtain ⟨d, ds, h, hd⟩ := exists_decimalDigits_eq_cons n.natAbs
    have hn : natural? (d :: ds) = some n.natAbs := h ▸ natural?_decimalDigits n.natAbs
    rw [toList_intText_of_nonneg hnon, h]
    unfold integer?
    split
    · rename_i he
      cases he
      cases hd
    · rename_i he
      cases he
      cases hd
    · rw [hn]
      exact congrArg some (by omega : (n.natAbs : Int) = n)

/-- An integer that no type holds may be a float, or a text. -/
theorem Plain.of_intText (n : Int) : Plain.of (intText n) =
    (Plain.ofInt? n).getD (((float? (intText n)).map Plain.float).getD .str) := by
  have hempty : (intText n).isEmpty = false := by
    rw [← Bool.not_eq_true, String.isEmpty_iff]
    exact fun he => toList_intText_ne_nil n (congrArg String.toList he)
  have hnull : isNull (intText n) = false := decide_eq_false (intText_notMem n (by decide))
  have hbool : bool? (intText n) = none := by
    rw [bool?, if_neg (intText_notMem n (by decide)), if_neg (intText_notMem n (by decide))]
  have hzero := hasLeadingZero_eq_false (unsigned_intText n)
  rw [Plain.of, hempty, hnull, hbool, integer?_intText, Option.bind_some, hzero]
  cases Plain.ofInt? n with
  | some p => rfl
  | none => cases float? (intText n) <;> rfl

/-- An integer of 64 bits with sign is the literal that its text stands for. -/
theorem Plain.literal?_intText_of_fits {n : Int} (h : fitsInt64 n = true) :
    (Plain.of (intText n)).literal? (intText n) = some (.int (Int64.ofInt n)) := by
  have hp : Plain.ofInt? n = some (.int n) := by
    simp only [fitsInt64, Nat.pow_eq, Bool.and_eq_true, decide_eq_true_eq] at h
    rw [Plain.ofInt?, if_pos]
    simp only [Nat.pow_eq]
    omega
  rw [Plain.of_intText, hp, Option.getD_some, Plain.literal?, Literal.ofValue?, if_pos h]

/-- The text of any other integer stands for no literal, unless for itself. -/
theorem Plain.literal?_intText_of_not_fits {n : Int} (h : fitsInt64 n = false) {l : Literal}
    (hl : (Plain.of (intText n)).literal? (intText n) = some l) : l = .str (intText n) := by
  rw [Plain.of_intText, Plain.ofInt?] at hl
  split at hl
  · rw [Option.getD_some, Plain.literal?, Literal.ofValue?, h] at hl
    cases hl
  · split at hl
    · cases hl
    · cases hx : float? (intText n) with
      | some x =>
        rw [hx] at hl
        cases hl
      | none =>
        rw [hx] at hl
        cases hl
        rfl

/-! ## The text of an integer in a line -/

theorem notMem_of_isDigit {c : Char} {cs : List Char} (hc : c.isDigit = true)
    (h : cs.any Char.isDigit = false) : c ∉ cs :=
  fun hm => List.any_eq_false.mp h c hm hc

theorem isSeparator_of_isDigit {c : Char} (h : c.isDigit = true) : isSeparator c = false := by
  have hn : c ∉ [' ', '\t', '\n', '\r', '\x85', '\u2028', '\u2029'] :=
    notMem_of_isDigit h (by decide)
  simpa [isSeparator, isWhite, isBreak, and_assoc] using hn

theorem isShown_of_isDigit {c : Char} (h : c.isDigit = true) : isShown c = true := by
  simp only [Char.isDigit, Bool.and_eq_true, decide_eq_true_eq] at h
  have hlo : 48 ≤ c.toNat := h.1
  have hhi : c.toNat ≤ 57 := h.2
  simp only [isShown, Bool.or_eq_true, Bool.and_eq_true, decide_eq_true_eq]
  omega

theorem isWord_intText (n : Int) : IsWord (intText n).toList where
  ne_nil := toList_intText_ne_nil n
  shown c hc := by
    rcases eq_or_isDigit_of_mem_intText hc with rfl | hd
    · exact ⟨rfl, rfl⟩
    · exact ⟨isShown_of_isDigit hd, isSeparator_of_isDigit hd⟩
  getLast? h := by
    rcases eq_or_isDigit_of_mem_intText (List.mem_of_getLast? h) with h | h <;> cases h
  head? h := by
    rcases eq_or_isDigit_of_mem_intText (List.mem_of_head? h) with h | h <;> cases h

/-- The text of an integer is a plain scalar, though it may begin with a minus sign. -/
theorem plainLine_intText (n : Int) : PlainLine (intText n).toList := by
  refine ⟨.word (isWord_intText n), ?_⟩
  obtain ⟨d, ds, h, hd⟩ := exists_decimalDigits_eq_cons n.natAbs
  rcases Int.lt_or_le n 0 with hneg | hnon
  · rw [toList_intText_of_neg hneg, h, startsLikeIndicator_cons_iff]
    refine ⟨fun hp => ?_, fun hp => ?_, by decide, fun _ => isSeparator_of_isDigit hd⟩
    · obtain ⟨rfl, -⟩ := List.cons_prefix_cons.mp (List.cons_prefix_cons.mp hp).2
      cases hd
    · cases (List.cons_prefix_cons.mp hp).1
  · rw [toList_intText_of_nonneg hnon, h, startsLikeIndicator_cons_iff]
    refine ⟨fun hp => ?_, fun hp => ?_, notMem_of_isDigit hd (by decide), fun hm => ?_⟩
    · obtain ⟨rfl, -⟩ := List.cons_prefix_cons.mp hp
      cases hd
    · obtain ⟨rfl, -⟩ := List.cons_prefix_cons.mp hp
      cases hd
    · exact absurd hm (notMem_of_isDigit hd (by decide))

theorem denotes_iff_of_plainLine {text : String} {l : Literal} (h : PlainLine text.toList) :
    Denotes text l ↔ (Plain.of text).literal? text = some l := by
  have hnone : LineRest ([] ++ []) := .mk (List.forall_mem_nil _) .none (absurd rfl)
  have hd := denotes_plainLine_iff (l := l) h hnone 0
  simpa using hd

end Yaml

/-! ## Overrides -/

namespace CommandLine

open Yaml

theorem literalOf_bool (b : Bool) : literalOf (Literal.bool b).text = .bool b := by
  refine literalOf_of_denotes ((denotes_iff_of_plainLine ?_).mpr ?_)
  · cases b <;> exact ⟨.word (by decide), by decide⟩
  · cases b <;> decide

/-- An integer of 64 bits with sign is given by its text, and the text of any other stays one. -/
theorem literalOf_intText (n : Int) : literalOf (intText n) =
    if fitsInt64 n then .int (Int64.ofInt n) else .str (intText n) := by
  have hden (l : Literal) := denotes_iff_of_plainLine (l := l) (plainLine_intText n)
  split
  · rename_i h
    exact literalOf_of_denotes ((hden _).mpr (Plain.literal?_intText_of_fits h))
  · rename_i h
    rw [Bool.not_eq_true] at h
    rcases literalOf_eq_iff.mp (rfl : literalOf (intText n) = _) with hl | ⟨hl, -⟩
    · exact Plain.literal?_intText_of_not_fits h ((hden _).mp hl)
    · exact hl

/-- Flags and integers are given on the command line by their texts, each integer that 64 bits with
sign hold among them. The text of an integer beyond is taken as it stands. -/
theorem readOverride_typed {name : String} (hne : name ≠ "") (hn : '=' ∉ name.toList) :
    (∀ b, readOverride (name ++ "=" ++ (Literal.bool b).text) = .ok (name, .bool b)) ∧
    (∀ n : Int64, readOverride (name ++ "=" ++ (Literal.int n).text) = .ok (name, .int n)) ∧
    ∀ n : Int, n < Int64.minValue.toInt ∨ Int64.maxValue.toInt < n →
      readOverride (name ++ "=" ++ intText n) = .ok (name, .str (intText n)) := by
  refine ⟨fun b => ?_, fun n => ?_, fun n h => ?_⟩
  · rw [readOverride_append hne hn, literalOf_bool]
  · rw [readOverride_append hne hn, Literal.text, literalOf_intText, if_pos (fitsInt64_toInt n),
      Int64.ofInt_toInt]
  · rw [readOverride_append hne hn, literalOf_intText, fitsInt64_eq_false_iff.mpr h]
    rfl

/-- The least and the greatest integer of 64 bits, and the integers beyond. -/
theorem readOverride_typed_retries :
    readOverride "retries=-9223372036854775808" = .ok ("retries", .int Int64.minValue) ∧
    readOverride "retries=9223372036854775807" = .ok ("retries", .int Int64.maxValue) ∧
    readOverride "retries=-9223372036854775809" =
      .ok ("retries", .str "-9223372036854775809") ∧
    readOverride "retries=9223372036854775808" = .ok ("retries", .str "9223372036854775808") ∧
    readOverride "retries=true" = .ok ("retries", .bool true) := by
  have hne : "retries" ≠ "" := by decide
  have hn : '=' ∉ "retries".toList := by decide
  obtain ⟨hbool, hint, hwide⟩ := readOverride_typed hne hn
  have hbelow : intText (-9223372036854775809) = "-9223372036854775809" := by decide +kernel
  have habove : intText 9223372036854775808 = "9223372036854775808" := by decide +kernel
  refine ⟨hint Int64.minValue, hint Int64.maxValue, ?_, ?_, hbool true⟩
  · simpa [hbelow] using hwide (-9223372036854775809) (.inl (by decide))
  · simpa [habove] using hwide 9223372036854775808 (.inr (by decide))

end CommandLine

end JobConfig

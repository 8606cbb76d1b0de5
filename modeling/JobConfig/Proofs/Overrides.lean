import JobConfig.CommandLine.Override
import JobConfig.Proofs.EntryOrder
import JobConfig.Proofs.PlainLines

/-!
# Values on the command line

The value of an override is read as a YAML text. If it denotes a literal (`Yaml.Denotes`), that is
what the parameter gets, and else the value as it stands (`literalOf_eq_iff`). A flag and an integer
may be written in that way. A text is taken as it stands only if the value denotes no other text
(`readOverride_takenLiterally_iff`): what is no part of a scalar, like a comment, is dropped from
it. In particular a value of words in a line is kept if they denote no text, or if nothing surrounds
them.
-/

namespace JobConfig

/-! ## Literals of a text -/

namespace Yaml

/-- The literal that a scalar with a content stands for, if it is one. -/
def Plain.literal? (content : String) : Plain → Option Literal
  | .bool b => some (.bool b)
  | .int n => Literal.ofValue? (.int n)
  | .str => some (.str content)
  | .null | .wide _ | .float _ => none

/-- A text is a document of one scalar without a tag of its own, which stands for a literal. -/
inductive Denotes (text : String) (l : Literal) : Prop
  | scalar {d : Document} {tag : Option String} {style : ScalarStyle} {content : String} {p : Plain}
    (hd : Document.parse? text = some d) (hroot : (Site.root d).content = .scalar tag style content)
    (htag : localTag? tag = none) (hp : Plain.ofScalar tag style content = .ok p)
    (hl : p.literal? content = some l)

theorem Plain.literal?_eq_some_iff {p : Plain} (expected : String) {content : String}
    {l : Literal} : p.literal? content = some l ↔
      ∃ v, p.toValue expected content = .ok v ∧ Literal.ofValue? v = some l := by
  cases p <;> simp [Plain.literal?, Plain.toValue, Literal.ofValue?, Read.fail]

variable {s : Site} {l : Literal}

/-- A site reads as a literal only if a scalar stands there. -/
theorem read_literal_eq_ok_iff : Literal.read s = .ok l ↔
    ∃ tag style content p, s.content = .scalar tag style content ∧ localTag? tag = none ∧
      Plain.ofScalar tag style content = .ok p ∧ p.literal? content = some l := by
  have hread : Literal.read s = .ok l ↔
      ∃ v, Site.valueAt ⟨false, "any value"⟩ s.depth s = .ok v ∧ Literal.ofValue? v = some l := by
    rw [Literal.read, bind_eq_ok]
    refine exists_congr fun v => and_congr_right fun _ => ?_
    cases Literal.ofValue? v with
    | none => exact ⟨nofun, nofun⟩
    | some l' => simp
  obtain ⟨inner, hinner⟩ : ∃ inner, Site.valueAt ⟨false, "any value"⟩ s.depth s =
      Site.valueWith ⟨false, "any value"⟩ inner s := by
    cases s.depth <;> exact ⟨_, rfl⟩
  rw [hread, hinner, Site.valueWith]
  simp only [Site.here, Read.placed_eq_ok]
  constructor
  · rintro ⟨v, hv, hl⟩
    cases htag : s.ownTag? with
    | some name =>
      rw [htag] at hv
      cases hv
    | none =>
      simp only [htag, Site.untaggedValue] at hv
      split at hv
      · rename_i tag style content hc
        cases hp : Plain.ofScalar tag style content with
        | error cause =>
          rw [hp] at hv
          cases hv
        | ok p =>
          rw [hp] at hv
          rw [Site.ownTag?, hc] at htag
          exact ⟨tag, style, content, p, hc, htag, hp,
            (Plain.literal?_eq_some_iff _).mpr ⟨v, hv, hl⟩⟩
      -- The value of a collection is one, and that of nothing is null.
      · obtain ⟨sites, -, hv⟩ := bind_eq_ok.mp hv
        obtain ⟨values, -, hv⟩ := bind_eq_ok.mp hv
        cases hv
        cases hl
      · obtain ⟨sites, -, hv⟩ := bind_eq_ok.mp hv
        obtain ⟨values, -, hv⟩ := bind_eq_ok.mp hv
        cases hv
        cases hl
      · cases hv
        cases hl
  · rintro ⟨tag, style, content, p, hc, htag, hp, hl⟩
    obtain ⟨v, hv, hl⟩ := (Plain.literal?_eq_some_iff "any value").mp hl
    have hown : s.ownTag? = none := by
      rw [Site.ownTag?, hc]
      exact htag
    exact ⟨v, by simp only [hown, Site.untaggedValue, hc, hp, hv], hl⟩

variable {text : String}

theorem denotes_iff : Denotes text l ↔ readText Literal.read text = .ok l := by
  rw [readText]
  constructor
  · rintro ⟨hd, hroot, htag, hp, hl⟩
    simp only [hd, mapError_eq_ok]
    exact read_literal_eq_ok_iff.mpr ⟨_, _, _, _, hroot, htag, hp, hl⟩
  · intro h
    cases hd : Document.parse? text with
    | none =>
      rw [hd] at h
      cases h
    | some d =>
      simp only [hd, mapError_eq_ok] at h
      obtain ⟨tag, style, content, p, hroot, htag, hp, hl⟩ := read_literal_eq_ok_iff.mp h
      exact .scalar hd hroot htag hp hl

/-- The words in a line stand for what they are without quotes. -/
theorem denotes_plainLine_iff {cs rest : List Char} (h : PlainLine cs) (hr : LineRest rest)
    (k : Nat) : Denotes (String.ofList (List.replicate k ' ' ++ (cs ++ rest))) l ↔
      (Plain.of (String.ofList cs)).literal? (String.ofList cs) = some l := by
  have hparse := parse?_plainLine h hr k
  constructor
  · rintro ⟨hd, hroot, -, hp, hl⟩
    cases hparse.symm.trans hd
    cases hroot
    cases hp
    exact hl
  · intro hl
    exact .scalar hparse rfl rfl rfl hl

end Yaml

/-! ## Overrides -/

namespace CommandLine

open Yaml

variable {value : String} {l : Literal}

theorem literalOf_of_denotes (h : Denotes value l) : literalOf value = l := by
  rw [literalOf, denotes_iff.mp h]

/-- A value is the literal that it denotes, or else a text. -/
theorem literalOf_eq_iff :
    literalOf value = l ↔ Denotes value l ∨ (l = .str value ∧ ∀ l', ¬ Denotes value l') := by
  by_cases h : ∃ l', Denotes value l'
  · obtain ⟨l', hl'⟩ := h
    rw [literalOf_of_denotes hl']
    constructor
    · rintro rfl
      exact .inl hl'
    · rintro (hl | ⟨-, hn⟩)
      · exact (literalOf_of_denotes hl').symm.trans (literalOf_of_denotes hl)
      · exact absurd hl' (hn l')
  · have hn := not_exists.mp h
    have hv : literalOf value = .str value := by
      rw [literalOf]
      cases hr : readText Literal.read value with
      | ok l' => exact absurd (denotes_iff.mpr hr) (hn l')
      | error e => rfl
    rw [hv]
    constructor
    · rintro rfl
      exact .inr ⟨rfl, hn⟩
    · rintro (hl | ⟨rfl, -⟩)
      · exact absurd hl (hn l)
      · rfl

/-- A value is taken literally: as the flag or the integer that it denotes, or as it stands. -/
inductive TakenLiterally (value : String) : Literal → Prop
  | bool {b : Bool} (h : Denotes value (.bool b)) : TakenLiterally value (.bool b)
  | int {n : Int64} (h : Denotes value (.int n)) : TakenLiterally value (.int n)
  | str : TakenLiterally value (.str value)

theorem takenLiterally_str_iff {t : String} : TakenLiterally value (.str t) ↔ t = value := by
  constructor
  · rintro ⟨⟩
    rfl
  · rintro rfl
    exact .str

/-- A value is taken literally unless it denotes another text. -/
theorem takenLiterally_literalOf_iff :
    TakenLiterally value (literalOf value) ↔ ∀ t, Denotes value (.str t) → t = value := by
  constructor
  · intro h t ht
    rw [literalOf_of_denotes ht] at h
    exact takenLiterally_str_iff.mp h
  · intro h
    rcases literalOf_eq_iff.mp rfl with hl | ⟨hl, -⟩
    · generalize literalOf value = l at hl ⊢
      cases l with
      | bool b => exact .bool hl
      | int n => exact .int hl
      | str t => exact takenLiterally_str_iff.mpr (h t hl)
    · exact hl ▸ .str

theorem splitAtEquals_append {name : List Char} (h : '=' ∉ name) (value : List Char) :
    splitAtEquals (name ++ '=' :: value) = some (name, value) := by
  induction name with
  | nil => rfl
  | cons c name ih =>
    obtain ⟨hc, hn⟩ := not_or.mp (mt List.mem_cons.mpr h)
    rw [List.cons_append, splitAtEquals, if_neg (Ne.symm hc), ih hn]
    rfl

/-- The name is what stands in front of the first equals sign. -/
theorem readOverride_append {name : String} (hne : name ≠ "") (hn : '=' ∉ name.toList)
    (value : String) : readOverride (name ++ "=" ++ value) = .ok (name, literalOf value) := by
  have ht : (name ++ "=" ++ value).toList = name.toList ++ '=' :: value.toList := by
    simp
  rw [readOverride, ht, splitAtEquals_append hn]
  simp [hne]

/-- Words in a line are taken literally if they denote no text, or if nothing surrounds them. -/
theorem takenLiterally_plainLine_iff {cs rest : List Char} (h : PlainLine cs) (hr : LineRest rest)
    {k : Nat} (hv : value.toList = List.replicate k ' ' ++ (cs ++ rest)) :
    TakenLiterally value (literalOf value) ↔
      Plain.of (String.ofList cs) ≠ .str ∨ k = 0 ∧ rest = [] := by
  have hvalue : value = String.ofList (List.replicate k ' ' ++ (cs ++ rest)) := by
    rw [← hv, String.ofList_toList]
  have hden (t : String) : Denotes value (.str t) ↔
      Plain.of (String.ofList cs) = .str ∧ String.ofList cs = t := by
    rw [hvalue, denotes_plainLine_iff h hr]
    cases hp : Plain.of (String.ofList cs) <;> simp [Plain.literal?, Literal.ofValue?]
  have hsame : String.ofList cs = value ↔ k = 0 ∧ rest = [] := by
    rw [hvalue, String.ofList_inj]
    constructor
    · intro he
      have hlen := congrArg List.length he
      simp only [List.length_append, List.length_replicate] at hlen
      exact ⟨by omega, List.length_eq_zero_iff.mp (by omega)⟩
    · rintro ⟨rfl, rfl⟩
      simp
  rw [takenLiterally_literalOf_iff]
  by_cases hp : Plain.of (String.ofList cs) = .str
  · simp [hden, hp, hsame]
  · simp [hden, hp]

/-- An override whose value denotes a flag or an integer is that, and one whose value denotes no
literal is the value as it stands. So the value is taken literally unless it denotes a text other
than itself. If it is words in a line, with spaces in front of them and blanks or a comment behind,
it denotes what the words do: a text loses all that surrounds them. -/
theorem readOverride_takenLiterally_iff {name : String} (hne : name ≠ "")
    (hn : '=' ∉ name.toList) (value : String) :
    ∃ l, readOverride (name ++ "=" ++ value) = .ok (name, l) ∧
      (Denotes value l ∨ l = .str value ∧ ∀ l', ¬ Denotes value l') ∧
      (TakenLiterally value l ↔ ∀ t, Denotes value (.str t) → t = value) ∧
      ∀ k cs rest, PlainLine cs → LineRest rest →
        value.toList = List.replicate k ' ' ++ (cs ++ rest) →
        (TakenLiterally value l ↔ Plain.of (String.ofList cs) ≠ .str ∨ k = 0 ∧ rest = []) ∧
        (Plain.of (String.ofList cs) = .str → l = .str (String.ofList cs)) := by
  refine ⟨literalOf value, readOverride_append hne hn value, literalOf_eq_iff.mp rfl,
    takenLiterally_literalOf_iff, fun k cs rest h hr hv => ?_⟩
  refine ⟨takenLiterally_plainLine_iff h hr hv, fun hp => literalOf_of_denotes ?_⟩
  rw [← String.ofList_toList (s := value), hv, denotes_plainLine_iff h hr, hp]
  rfl

/-- The end of a value that looks like a comment is dropped from it. -/
theorem not_takenLiterally_comment :
    readOverride "tag=v1 # final" = .ok ("tag", .str "v1") ∧
      ¬ TakenLiterally "v1 # final" (.str "v1") := by
  exact ⟨by decide +kernel, mt takenLiterally_str_iff.mp (by decide)⟩

/-- A comment behind words is dropped, and one behind an integer is no part of it. -/
theorem readOverride_takenLiterally_iff_tag :
    (∃ l, readOverride "tag=v1 b # c" = .ok ("tag", l) ∧ l = .str "v1 b" ∧
      ¬ TakenLiterally "v1 b # c" l) ∧
    ∃ l, readOverride "tag= 3 # c" = .ok ("tag", l) ∧ TakenLiterally " 3 # c" l := by
  have hblank : ∀ c ∈ [' '], isWhite c = true := List.forall_mem_singleton.mpr rfl
  have hcomment : LineRest ([' '] ++ ['#', ' ', 'c']) :=
    .mk hblank (.hash (List.all_eq_true.mp rfl)) nofun
  have hwords : PlainLine (['v', '1'] ++ ([' '] ++ ['b'])) :=
    ⟨.append (by decide) nofun hblank (.word (by decide)), by decide⟩
  have hthree : PlainLine ['3'] := ⟨.word (by decide), by decide⟩
  have hne : "tag" ≠ "" := by decide
  have hn : '=' ∉ "tag".toList := by decide
  constructor
  · obtain ⟨l, hl, -, -, hline⟩ := readOverride_takenLiterally_iff hne hn "v1 b # c"
    obtain ⟨htaken, hstr⟩ := hline 0 _ _ hwords hcomment (by decide)
    refine ⟨l, hl, hstr (by decide +kernel), fun h => ?_⟩
    rcases htaken.mp h with hp | ⟨-, hr⟩
    · exact hp (by decide +kernel)
    · cases hr
  · obtain ⟨l, hl, -, -, hline⟩ := readOverride_takenLiterally_iff hne hn " 3 # c"
    obtain ⟨htaken, -⟩ := hline 1 _ _ hthree hcomment (by decide)
    exact ⟨l, hl, htaken.mpr (.inl (by decide +kernel))⟩

end CommandLine

end JobConfig

import JobConfig.Proofs.Entries
import JobConfig.Proofs.Outcome
import JobConfig.Reading.Record

/-!
# The order of entries

A record is read from the entries of a mapping one by one. What one entry adds to the fields found
so far is said by `Fields.Takes`. Two neighbours among the entries may change places (`Takes.swap`),
so the same fields are found in any order (`Fields.collect_of_perm`), and the record is the same
(`Fields.read_of_perm`). It is built from the values that the entries have under the names of its
fields (`Fields.exists_build_of_read`).

Lists and dictionaries keep the order that they are read in: a list has its items one by one
(`Source.readList_eq_ok_iff`), and a dictionary its entries (`Source.readDict_eq_ok_iff`).
-/

namespace JobConfig

variable {σ α β : Type} [Source σ]

theorem Read.placed_eq_ok {place : Option Place} {r : Read α} {a : α} :
    Read.placed place r = .ok a ↔ r = .ok a := by
  cases r with
  | error e => rcases e with ⟨cause, - | place'⟩ <;> exact ⟨nofun, nofun⟩
  | ok a => rfl

namespace Source

theorem within_eq_ok {s : σ} {r : Read α} {a : α} : within s r = .ok a ↔ r = .ok a :=
  Read.placed_eq_ok

/-- The source is a mapping, and these are its entries. -/
def IsMapping (s : σ) (es : List (σ × σ)) : Prop :=
  ∀ expected, entries expected s = .ok es

/-- Among the entries is one with the name of a field and this value. -/
def Under (es : List (σ × σ)) (name : String) (t : σ) : Prop :=
  ∃ k, (k, t) ∈ es ∧ fieldName k = .ok name

end Source

/-! ## Fields -/

namespace Fields

open Source

variable {fs : Fields σ α} {strict : Bool} {a b : σ × σ} {es es' : List (σ × σ)}
  {seen seen' mid last found : List (String × σ)}

/-- What an entry adds to the fields found so far: a new field that it fits, or nothing, where
entries that are no fields are passed over. -/
inductive Takes (fs : Fields σ α) (strict : Bool) (e : σ × σ) (seen : List (String × σ)) :
    List (String × σ) → Prop
  | field {name : String} (hn : fieldName e.1 = .ok name) (hm : name ∈ fs.names)
    (hnew : name ∉ entryKeys seen) (hc : fs.check name e.2 = .ok ()) :
    Takes fs strict e seen (seen ++ [(name, e.2)])
  | other {name : String} (hn : fieldName e.1 = .ok name) (hm : name ∉ fs.names)
    (hs : strict = false) : Takes fs strict e seen seen

/-- Entries are collected one after the other. -/
theorem collect_cons_eq_ok_iff : fs.collect strict seen (a :: es) = .ok found ↔
    ∃ mid, fs.Takes strict a seen mid ∧ fs.collect strict mid es = .ok found := by
  rw [collect, bind_eq_ok]
  constructor
  · rintro ⟨name, hn, h⟩
    split at h
    · rename_i hm
      split at h
      · cases h
      · rename_i hnew
        obtain ⟨⟨⟩, hc, h⟩ := bind_eq_ok.mp h
        exact ⟨_, .field hn hm hnew hc, h⟩
    · rename_i hm
      split at h
      · cases h
      · rename_i hs
        exact ⟨_, .other hn hm ((Bool.not_eq_true _).mp hs), h⟩
  · rintro ⟨mid, ht, h⟩
    cases ht with
    | @field name hn hm hnew hc =>
      refine ⟨name, hn, ?_⟩
      rw [if_pos hm, if_neg hnew, hc, ok_bind, h]
    | @other name hn hm hs =>
      refine ⟨name, hn, ?_⟩
      rw [if_neg hm, hs, if_neg Bool.false_ne_true, ← hs, h]

namespace Takes

/-- In which order the fields have been found makes no difference. -/
theorem of_perm (h : fs.Takes strict a seen mid) (hs : seen.Perm seen') :
    ∃ mid', fs.Takes strict a seen' mid' ∧ mid.Perm mid' := by
  cases h with
  | @field name hn hm hnew hc =>
    have hnew' : name ∉ entryKeys seen' := mt (hs.map Prod.fst).mem_iff.mpr hnew
    exact ⟨_, .field hn hm hnew' hc, hs.append_right _⟩
  | other hn hm hstrict => exact ⟨_, .other hn hm hstrict, hs⟩

/-- Two entries may change places. -/
theorem swap (ha : fs.Takes strict a seen mid) (hb : fs.Takes strict b mid last) :
    ∃ mid' last', fs.Takes strict b seen mid' ∧ fs.Takes strict a mid' last' ∧
      last.Perm last' := by
  cases ha with
  | @field n hn hm hnew hc =>
    cases hb with
    | @field n' hn' hm' hnew' hc' =>
      simp only [entryKeys_append, entryKeys_cons, entryKeys_nil, List.mem_append,
        List.mem_singleton, not_or] at hnew'
      have hback : n ∉ entryKeys (seen ++ [(n', b.2)]) := by
        simpa using ⟨hnew, Ne.symm hnew'.2⟩
      refine ⟨_, _, .field hn' hm' hnew'.1 hc', .field hn hm hback hc, ?_⟩
      rw [List.append_assoc, List.append_assoc]
      exact (List.Perm.swap ..).append_left seen
    | other hn' hm' hs' =>
      exact ⟨_, _, .other hn' hm' hs', .field hn hm hnew hc, .refl _⟩
  | other hn hm hs =>
    cases hb with
    | field hn' hm' hnew' hc' =>
      exact ⟨_, _, .field hn' hm' hnew' hc', .other hn hm hs, .refl _⟩
    | other hn' hm' hs' =>
      exact ⟨_, _, .other hn' hm' hs', .other hn hm hs, .refl _⟩

/-- No field is found twice. -/
theorem nodup (h : fs.Takes strict a seen mid) (hd : (entryKeys seen).Nodup) :
    (entryKeys mid).Nodup := by
  cases h with
  | field hn hm hnew hc =>
    rw [entryKeys_append, entryKeys_cons, entryKeys_nil]
    exact (List.perm_append_singleton ..).nodup_iff.mpr (List.nodup_cons.mpr ⟨hnew, hd⟩)
  | other hn hm hs => exact hd

/-- What is found more than before is the value of the entry, under its name. -/
theorem mem_iff (h : fs.Takes strict a seen mid) {name : String} (hm : name ∈ fs.names) {t : σ} :
    (name, t) ∈ mid ↔ (name, t) ∈ seen ∨ a.2 = t ∧ fieldName a.1 = .ok name := by
  cases h with
  | field hn _ hnew hc =>
    rw [List.mem_append, List.mem_singleton, Prod.mk.injEq, hn, Except.ok.injEq, eq_comm,
      @eq_comm _ t, and_comm]
  | other hn hm' hs =>
    refine (or_iff_left ?_).symm
    rintro ⟨-, h⟩
    cases hn.symm.trans h
    exact hm' hm

end Takes

theorem collect_of_perm_seen (hs : seen.Perm seen') (h : fs.collect strict seen es = .ok found) :
    ∃ found', fs.collect strict seen' es = .ok found' ∧ found.Perm found' := by
  induction es generalizing seen seen' with
  | nil =>
    cases h
    exact ⟨seen', rfl, hs⟩
  | cons e es ih =>
    obtain ⟨mid, ht, h⟩ := collect_cons_eq_ok_iff.mp h
    obtain ⟨mid', ht', hm⟩ := ht.of_perm hs
    obtain ⟨found', h', hf⟩ := ih hm h
    exact ⟨found', collect_cons_eq_ok_iff.mpr ⟨mid', ht', h'⟩, hf⟩

/-- The same fields are found in entries of any order. -/
theorem collect_of_perm (hp : es.Perm es') (hs : seen.Perm seen')
    (h : fs.collect strict seen es = .ok found) :
    ∃ found', fs.collect strict seen' es' = .ok found' ∧ found.Perm found' := by
  induction hp generalizing seen seen' found with
  | nil => exact collect_of_perm_seen hs h
  | cons e _ ih =>
    obtain ⟨mid, ht, h⟩ := collect_cons_eq_ok_iff.mp h
    obtain ⟨mid', ht', hm⟩ := ht.of_perm hs
    obtain ⟨found', h', hf⟩ := ih hm h
    exact ⟨found', collect_cons_eq_ok_iff.mpr ⟨mid', ht', h'⟩, hf⟩
  | swap a b es =>
    obtain ⟨mid, hb, h⟩ := collect_cons_eq_ok_iff.mp h
    obtain ⟨last, ha, h⟩ := collect_cons_eq_ok_iff.mp h
    obtain ⟨mid', last', ha', hb', hl⟩ := hb.swap ha
    obtain ⟨found', h', hf⟩ := collect_of_perm_seen hl h
    have hab : fs.collect strict seen (a :: b :: es) = .ok found' :=
      collect_cons_eq_ok_iff.mpr ⟨mid', ha', collect_cons_eq_ok_iff.mpr ⟨last', hb', h'⟩⟩
    obtain ⟨found'', h'', hf'⟩ := collect_of_perm_seen hs hab
    exact ⟨found'', h'', hf.trans hf'⟩
  | trans _ _ ih₁ ih₂ =>
    obtain ⟨found', h', hf⟩ := ih₁ hs h
    obtain ⟨found'', h'', hf'⟩ := ih₂ (.refl _) h'
    exact ⟨found'', h'', hf.trans hf'⟩

theorem nodup_of_collect (h : fs.collect strict seen es = .ok found)
    (hd : (entryKeys seen).Nodup) : (entryKeys found).Nodup := by
  induction es generalizing seen with
  | nil =>
    cases h
    exact hd
  | cons e es ih =>
    obtain ⟨mid, ht, h⟩ := collect_cons_eq_ok_iff.mp h
    exact ih h (ht.nodup hd)

/-- What is found under the name of a field are values of the entries. -/
theorem mem_of_collect (h : fs.collect strict seen es = .ok found) {name : String}
    (hm : name ∈ fs.names) {t : σ} :
    (name, t) ∈ found ↔ (name, t) ∈ seen ∨ Under es name t := by
  induction es generalizing seen with
  | nil =>
    cases h
    simp [Under]
  | cons e es ih =>
    obtain ⟨k, v⟩ := e
    obtain ⟨mid, ht, h⟩ := collect_cons_eq_ok_iff.mp h
    rw [ih h, ht.mem_iff hm, or_assoc]
    refine or_congr_right ?_
    simp only [Under, List.mem_cons, Prod.mk.injEq]
    constructor
    · rintro (⟨rfl, hn⟩ | ⟨k', hk, hn⟩)
      · exact ⟨k, .inl ⟨rfl, rfl⟩, hn⟩
      · exact ⟨k', .inr hk, hn⟩
    · rintro ⟨k', ⟨rfl, rfl⟩ | hk, hn⟩
      · exact .inl ⟨rfl, hn⟩
      · exact .inr ⟨k', hk, hn⟩

/-! ## Records -/

variable {kind : String} {s t : σ} {r : α}

theorem read_eq_ok_iff_collect (hs : IsMapping s es) : fs.read kind strict s = .ok r ↔
    ∃ found, fs.collect strict [] es = .ok found ∧
      fs.build (fun name => valueAt? name found) = .ok r := by
  rw [read, within_eq_ok, hs, ok_bind, bind_eq_ok]

/-- A record is read alike from its entries in any order. -/
theorem read_of_perm (hs : IsMapping s es) (ht : IsMapping t es') (hp : es.Perm es')
    (h : fs.read kind strict s = .ok r) : fs.read kind strict t = .ok r := by
  obtain ⟨found, hc, hb⟩ := (read_eq_ok_iff_collect hs).mp h
  obtain ⟨found', hc', hf⟩ := collect_of_perm hp (.refl _) hc
  refine (read_eq_ok_iff_collect ht).mpr ⟨found', hc', ?_⟩
  have hd := nodup_of_collect hc' List.nodup_nil
  simpa only [valueAt?_of_perm hd hf] using hb

/-- A record is built from the values that the entries have under the names of its fields. -/
theorem exists_build_of_read (hs : IsMapping s es) (h : fs.read kind strict s = .ok r) :
    ∃ find, fs.build find = .ok r ∧
      ∀ name ∈ fs.names, ∀ v, find name = some v ↔ Under es name v := by
  obtain ⟨found, hc, hb⟩ := (read_eq_ok_iff_collect hs).mp h
  have hd := nodup_of_collect hc List.nodup_nil
  refine ⟨_, hb, fun name hm v => ?_⟩
  have hf : (name, v) ∈ found ↔ Under es name v := by
    rw [mem_of_collect hc hm]
    exact or_iff_right nofun
  exact ⟨fun hv => hf.mp (mem_of_valueAt? hv), fun hv => valueAt?_of_mem hd (hf.mpr hv)⟩

end Fields

/-! ## Lists and dictionaries -/

namespace Source

variable {read : σ → Read α} {s : σ}

/-- A list is the items of a sequence, each as it reads, in their order. -/
theorem readList_eq_ok_iff {as : List α} : readList read s = .ok as ↔
    ∃ is, items s = .ok is ∧ List.Forall₂ (fun i a => read i = .ok a) is as := by
  simp only [readList, within_eq_ok, bind_eq_ok, mapM_eq_ok_iff]

theorem readEntries_eq_ok_iff {d d' : Dict α} {es : List (σ × σ)} :
    readEntries read d es = .ok d' ↔ ∃ bs : List (String × α),
      List.Forall₂ (fun e b => str e.1 = .ok b.1 ∧ read e.2 = .ok b.2) es bs ∧
        d' = bs.foldl (fun d b => d.insert b.1 b.2) d := by
  induction es generalizing d with
  | nil => simp [readEntries, eq_comm]
  | cons e es ih =>
    simp only [readEntries, bind_eq_ok, ih, List.forall₂_cons_left_iff]
    constructor
    · rintro ⟨name, hn, a, ha, bs, hbs, rfl⟩
      exact ⟨_, ⟨(name, a), bs, ⟨hn, ha⟩, hbs, rfl⟩, rfl⟩
    · rintro ⟨_, ⟨b, bs, ⟨hn, ha⟩, hbs, rfl⟩, rfl⟩
      exact ⟨b.1, hn, b.2, ha, bs, hbs, rfl⟩

/-- A dictionary is the entries of a mapping, each as it reads, put in one after the other. -/
theorem readDict_eq_ok_iff {d : Dict α} : readDict read s = .ok d ↔
    ∃ es bs, entries "a map" s = .ok es ∧
      List.Forall₂ (fun e b => str e.1 = .ok b.1 ∧ read e.2 = .ok b.2) es bs ∧
        d = Dict.ofList bs := by
  simp only [readDict, within_eq_ok, bind_eq_ok, readEntries_eq_ok_iff, exists_and_left]
  rfl

end Source

end JobConfig

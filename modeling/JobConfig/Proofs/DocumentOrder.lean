import JobConfig.Proofs.EntryOrder
import JobConfig.Proofs.Records
import JobConfig.Yaml.Read

/-!
# Documents in another order

What stands at a site does not depend on the rest of its document, but for the nodes that aliases
stand for. So sites with the same node are alike in documents with the same anchors (`Site.Alike`),
and a reader that goes by what a source can be asked for reads them alike (`Local`). Such readers
are put together like the readers themselves. A text may therefore have the entries of its mapping
in another order (`Document.Reordered`): what is read of it as a record is the same
(`Fields.Local.readText_of_reordered`).
-/

namespace JobConfig.Yaml

variable {α β : Type}

/-! ## Sites that are alike -/

/-- The sites are the same node at the same place, in documents whose aliases stand for the same
nodes. -/
structure Site.Alike (s t : Site) : Prop where
  node_eq : s.node = t.node
  place_eq : s.place = t.place
  depth_eq : s.depth = t.depth
  find?_eq (number : Nat) : s.document.find? number = t.document.find? number

theorem Site.misfit_ne_ok (s : Site) (expected : String) (a : α) : s.misfit expected ≠ .ok a := by
  intro h
  have h := Read.placed_eq_ok.mp h
  split at h
  · split at h <;> cases h
  · cases h
  · cases h
  · cases h

namespace Site.Alike

variable {s t : Site}

theorem content_eq (h : s.Alike t) : s.content = t.content := by
  simp only [Site.content, Document.resolve, h.node_eq, h.find?_eq]

theorem misfit_eq (h : s.Alike t) (expected : String) :
    (s.misfit expected : Read α) = t.misfit expected := by
  simp only [misfit, here, h.content_eq, h.place_eq]

theorem isEmpty_eq (h : s.Alike t) : s.isEmpty = t.isEmpty := by
  simp only [isEmpty, h.content_eq]

theorem ownTag?_eq (h : s.Alike t) : s.ownTag? = t.ownTag? := by
  simp only [ownTag?, h.content_eq]

theorem inside (h : s.Alike t) (steps : Place) (n : Node) :
    (s.inside steps n).Alike (t.inside steps n) where
  node_eq := rfl
  place_eq := congrArg (· ++ steps) h.place_eq
  depth_eq := congrArg (· - 1) h.depth_eq
  find?_eq := h.find?_eq

theorem itemSites (h : s.Alike t) (index : Nat) (ns : List Node) :
    List.Forall₂ Alike (s.itemSites index ns) (t.itemSites index ns) := by
  induction ns generalizing index with
  | nil => exact .nil
  | cons n ns ih => exact .cons (h.inside [.item index] n) (ih (index + 1))

theorem entrySites (h : s.Alike t) (es : List (Node × Node)) :
    List.Forall₂ (fun e f => e.1.Alike f.1 ∧ e.2.Alike f.2) (s.entrySites es)
      (t.entrySites es) := by
  induction es with
  | nil => exact .nil
  | cons e es ih => exact .cons ⟨h.inside _ _, h.inside _ _⟩ ih

/-- A collection that can be opened at one site can be opened at the other. -/
theorem opened {R : α → β → Prop} (h : s.Alike t) {a : α} {b : β} (hr : R a b) {a' : α}
    (ho : s.opened a = .ok a') : ∃ b', t.opened b = .ok b' ∧ R a' b' := by
  rw [Site.opened, h.depth_eq] at ho
  rw [Site.opened]
  split at ho
  · cases ho
  · rename_i hd
    cases ho
    exact ⟨b, if_neg hd, hr⟩

/-- What is no collection is nothing at all, or it does not read as one. -/
theorem emptyOrMisfit {R : α → β → Prop} (h : s.Alike t) {expected : String} {is : List α}
    (hs : (if s.isEmpty then .ok [] else s.misfit expected) = .ok is) :
    ∃ js : List β, (if t.isEmpty then .ok [] else t.misfit expected) = .ok js ∧
      List.Forall₂ R is js := by
  rw [h.isEmpty_eq] at hs
  split at hs
  · cases hs
    rename_i he
    exact ⟨[], if_pos he, .nil⟩
  · exact absurd hs (s.misfit_ne_ok expected is)

theorem readItems (h : s.Alike t) {is : List Site} (hs : s.readItems = .ok is) :
    ∃ js, t.readItems = .ok js ∧ List.Forall₂ Alike is js := by
  rw [Site.readItems, h.content_eq] at hs
  rw [Site.readItems]
  split at hs
  · exact h.opened (h.itemSites 0 _) hs
  · exact h.emptyOrMisfit hs

theorem readEntries (h : s.Alike t) {expected : String} {es : List (Site × Site)}
    (hs : s.readEntries expected = .ok es) :
    ∃ fs, t.readEntries expected = .ok fs ∧
      List.Forall₂ (fun e f => e.1.Alike f.1 ∧ e.2.Alike f.2) es fs := by
  rw [Site.readEntries, h.content_eq] at hs
  rw [Site.readEntries]
  split at hs
  · exact h.opened (h.entrySites _) hs
  · exact h.emptyOrMisfit hs

/-! ### Scalars -/

theorem readStr_eq (h : s.Alike t) (expected : String) :
    s.readStr expected = t.readStr expected := by
  simp only [readStr, h.content_eq, h.misfit_eq]

theorem readBool_eq (h : s.Alike t) : s.readBool = t.readBool := by
  simp only [readBool, h.content_eq, h.misfit_eq]

theorem readParallelism_eq (h : s.Alike t) : s.readParallelism = t.readParallelism := by
  simp only [readParallelism, here, h.content_eq, h.misfit_eq, h.place_eq]

theorem isUnset_eq (h : s.Alike t) : s.isUnset = t.isUnset := by
  simp only [isUnset, h.content_eq]

theorem readChoice_eq (h : s.Alike t) (named : List (String × α)) :
    s.readChoice named = t.readChoice named := by
  simp only [readChoice, readUnit, here, h.ownTag?_eq, h.content_eq, h.misfit_eq, h.place_eq]

/-! ### Values -/

theorem entryValues_eq {distinct : Bool} {read read' : Site → Read Value}
    {es fs : List (Site × Site)}
    (h : List.Forall₂ (fun e f => e.1.Alike f.1 ∧ e.2.Alike f.2) es fs)
    (hr : ∀ {s t}, s.Alike t → read s = read' t) (before : List (Value × Value)) :
    entryValues distinct read before es = entryValues distinct read' before fs := by
  induction h generalizing before with
  | nil => rfl
  | cons h _ ih => simp only [entryValues, hr h.1, hr h.2, ih]

theorem valueWith_eq (r : Reading) {read read' : Site → Read Value}
    (hr : ∀ {s t}, s.Alike t → read s = read' t) (h : s.Alike t) :
    valueWith r read s = valueWith r read' t := by
  have hu : untaggedValue r read s = untaggedValue r read' t := by
    simp only [untaggedValue, Site.opened, h.content_eq, h.depth_eq]
    split
    · rfl
    · split
      · rfl
      · rw [ok_bind, ok_bind, mapM_congr (h.itemSites 0 _) hr]
    · split
      · rfl
      · rw [ok_bind, ok_bind, entryValues_eq (h.entrySites _) hr]
    · rfl
  simp only [valueWith, here, hu, h.ownTag?_eq, h.place_eq]

theorem valueAt_eq (r : Reading) (depth : Nat) (h : s.Alike t) :
    valueAt r depth s = valueAt r depth t := by
  induction depth generalizing s t with
  | zero => exact valueWith_eq r (fun _ => rfl) h
  | succ depth ih => exact valueWith_eq r ih h

end Site.Alike

/-! ## Readers -/

/-- The reader goes by what a site can be asked for: it reads sites that are alike alike. -/
structure Local (read : Site → Read α) : Prop where
  ok {s t : Site} {a : α} : s.Alike t → read s = .ok a → read t = .ok a

namespace Local

variable {read : Site → Read α}

theorem of_eq (h : ∀ {s t : Site}, s.Alike t → read s = read t) : Local read where
  ok hs ha := (h hs).symm.trans ha

theorem str : Local Source.str :=
  of_eq fun h => h.readStr_eq "a string"

theorem bool : Local Source.bool :=
  of_eq Site.Alike.readBool_eq

theorem parallelism : Local Source.parallelism :=
  of_eq Site.Alike.readParallelism_eq

theorem choice (named : List (String × α)) : Local (Source.choice named) :=
  of_eq fun h => h.readChoice_eq named

theorem shape : Local Source.shape :=
  of_eq fun {s t} h => by
    show Site.valueAt _ s.depth s = Site.valueAt _ t.depth t
    rw [h.depth_eq, h.valueAt_eq]

theorem value : Local Source.value :=
  of_eq fun {s t} h => by
    show Site.valueAt _ s.depth s = Site.valueAt _ t.depth t
    rw [h.depth_eq, h.valueAt_eq]

/-- A reader that goes on from the shape of a site. -/
theorem shape_bind (f : Value → Read α) : Local fun s => Source.shape s >>= f where
  ok h ha := by
    obtain ⟨v, hv, ha⟩ := bind_eq_ok.mp ha
    exact bind_eq_ok.mpr ⟨v, shape.ok h hv, ha⟩

theorem optional (hr : Local read) : Local (Source.readOptional read) where
  ok h ho := by
    obtain ⟨unset, hu, ho⟩ := bind_eq_ok.mp ho
    refine bind_eq_ok.mpr ⟨unset, h.isUnset_eq.symm.trans hu, ?_⟩
    cases unset with
    | true => exact ho
    | false =>
      obtain ⟨a, ha, rfl⟩ := map_eq_ok.mp ho
      exact map_eq_ok.mpr ⟨a, hr.ok h ha, rfl⟩

theorem list (hr : Local read) : Local (Source.readList read) where
  ok h ha := by
    obtain ⟨is, hi, has⟩ := Source.readList_eq_ok_iff.mp ha
    obtain ⟨js, hj, hij⟩ := h.readItems hi
    exact Source.readList_eq_ok_iff.mpr ⟨js, hj, forall₂_transfer hij has hr.ok⟩

theorem dict (hr : Local read) : Local (Source.readDict read) where
  ok h hd := by
    obtain ⟨es, bs, he, hbs, rfl⟩ := Source.readDict_eq_ok_iff.mp hd
    obtain ⟨fs, hf, hef⟩ := h.readEntries he
    refine Source.readDict_eq_ok_iff.mpr ⟨fs, bs, hf, forall₂_transfer hef hbs ?_, rfl⟩
    exact fun h hb => ⟨str.ok h.1 hb.1, hr.ok h.2 hb.2⟩

end Local

end JobConfig.Yaml

/-! ## Records -/

namespace JobConfig.Fields

open Yaml (Site Document)

variable {α β : Type}

/-- The description goes by what a site can be asked for. -/
structure Local (fs : Fields Site α) : Prop where
  check {name : String} {s t : Site} :
    s.Alike t → fs.check name s = .ok () → fs.check name t = .ok ()
  build {find find' : String → Option Site} {a : α} :
    (∀ name, Option.Rel Site.Alike (find name) (find' name)) → fs.build find = .ok a →
      fs.build find' = .ok a

namespace Local

theorem field (name : String) {read : Site → Read α} {absent : Read α} (h : Yaml.Local read) :
    (Fields.field name read absent).Local where
  check {other s t} hs hc := by
    simp only [Fields.field] at hc ⊢
    split
    · rename_i hn
      rw [if_pos hn, outcome_eq_ok_iff] at hc
      obtain ⟨a, ha⟩ := hc
      exact outcome_eq_ok_iff.mpr ⟨a, h.ok hs ha⟩
    · rfl
  build {find find' a} hf hb := by
    have hr := hf name
    simp only [Fields.field] at hb ⊢
    generalize find name = o at hb hr
    generalize find' name = o' at hr ⊢
    cases hr with
    | none => exact hb
    | some hst => exact h.ok hst hb

theorem required (name : String) {read : Site → Read α} (h : Yaml.Local read) :
    (Fields.required name read).Local :=
  field name h

theorem optional (name : String) {read : Site → Read α} (h : Yaml.Local read) :
    (Fields.optional name read).Local :=
  field name h.optional

theorem defaulted (name : String) {read : Site → Read α} (absent : α) (h : Yaml.Local read) :
    (Fields.defaulted name read absent).Local :=
  field name h

theorem map {fs : Fields Site α} (h : fs.Local) (f : α → β) : (fs.map f).Local where
  check := h.check
  build hf hb := by
    obtain ⟨a, ha, rfl⟩ := map_eq_ok.mp hb
    exact map_eq_ok.mpr ⟨a, h.build hf ha, rfl⟩

theorem and {fs : Fields Site (α → β)} {gs : Fields Site α} (hf : fs.Local) (hg : gs.Local) :
    (fs.and gs).Local where
  check hs hc := by
    obtain ⟨⟨⟩, hcf, hcg⟩ := bind_eq_ok.mp hc
    exact bind_eq_ok.mpr ⟨(), hf.check hs hcf, hg.check hs hcg⟩
  build hfind hb := by
    obtain ⟨f, hbf, hb⟩ := bind_eq_ok.mp hb
    obtain ⟨a, hbg, hb⟩ := bind_eq_ok.mp hb
    refine bind_eq_ok.mpr ⟨f, hf.build hfind hbf, ?_⟩
    exact bind_eq_ok.mpr ⟨a, hg.build hfind hbg, hb⟩

variable {fs : Fields Site α} {strict : Bool}

theorem takes (h : fs.Local) {e f : Site × Site} (he : e.1.Alike f.1 ∧ e.2.Alike f.2)
    {seen seen' mid : List (String × Site)}
    (hs : List.Forall₂ (fun e f => f.1 = e.1 ∧ e.2.Alike f.2) seen seen')
    (ht : fs.Takes strict e seen mid) : ∃ mid', fs.Takes strict f seen' mid' ∧
      List.Forall₂ (fun e f => f.1 = e.1 ∧ e.2.Alike f.2) mid mid' := by
  cases ht with
  | field hn hm hnew hc =>
    have hn' := (he.1.readStr_eq "field identifier").symm.trans hn
    have hnew' := (entryKeys_eq_of_forall₂ hs).symm ▸ hnew
    exact ⟨_, .field hn' hm hnew' (h.check he.2 hc), List.rel_append hs (.cons ⟨rfl, he.2⟩ .nil)⟩
  | other hn hm hstrict =>
    have hn' := (he.1.readStr_eq "field identifier").symm.trans hn
    exact ⟨_, .other hn' hm hstrict, hs⟩

/-- Fields are collected alike. -/
theorem collect (h : fs.Local) {es es' : List (Site × Site)}
    (he : List.Forall₂ (fun e f => e.1.Alike f.1 ∧ e.2.Alike f.2) es es')
    {seen seen' found : List (String × Site)}
    (hs : List.Forall₂ (fun e f => f.1 = e.1 ∧ e.2.Alike f.2) seen seen')
    (hc : fs.collect strict seen es = .ok found) :
    ∃ found', fs.collect strict seen' es' = .ok found' ∧
      List.Forall₂ (fun e f => f.1 = e.1 ∧ e.2.Alike f.2) found found' := by
  induction he generalizing seen seen' with
  | nil =>
    cases hc
    exact ⟨seen', rfl, hs⟩
  | cons he _ ih =>
    obtain ⟨mid, ht, hc⟩ := collect_cons_eq_ok_iff.mp hc
    obtain ⟨mid', ht', hm⟩ := h.takes he hs ht
    obtain ⟨found', hc', hf⟩ := ih hm hc
    exact ⟨found', collect_cons_eq_ok_iff.mpr ⟨mid', ht', hc'⟩, hf⟩

/-- Records are read alike. -/
theorem read (h : fs.Local) (kind : String) (strict : Bool) :
    Yaml.Local (fs.read kind strict) where
  ok hst ha := by
    obtain ⟨es, he, ha⟩ := bind_eq_ok.mp (Source.within_eq_ok.mp ha)
    obtain ⟨found, hc, hb⟩ := bind_eq_ok.mp ha
    obtain ⟨es', he', hes⟩ := hst.readEntries he
    obtain ⟨found', hc', hf⟩ := h.collect hes .nil hc
    refine Source.within_eq_ok.mpr (bind_eq_ok.mpr ⟨es', he', bind_eq_ok.mpr ⟨found', hc', ?_⟩⟩)
    exact h.build (valueAt?_of_forall₂ hf) hb

end Local

end JobConfig.Fields

/-! ## Texts -/

namespace JobConfig.Yaml

/-- The documents are mappings with the same entries, in any order, whose aliases stand for the same
nodes. -/
def Document.Reordered (d d' : Document) : Prop :=
  (∃ tag tag' es es', d.root = .map tag es ∧ d'.root = .map tag' es' ∧ es.Perm es') ∧
    ∀ number, d.find? number = d'.find? number

/-- The texts describe mappings with the same entries, in any order. -/
def Reordered (text text' : String) : Prop :=
  ∃ d d', Document.parse? text = some d ∧ Document.parse? text' = some d' ∧ d.Reordered d'

theorem Document.Reordered.symm {d d' : Document} (h : d.Reordered d') : d'.Reordered d := by
  obtain ⟨⟨tag, tag', es, es', hd, hd', hp⟩, hf⟩ := h
  exact ⟨⟨tag', tag, es', es, hd', hd, hp.symm⟩, fun number => (hf number).symm⟩

theorem Reordered.symm {text text' : String} (h : Reordered text text') : Reordered text' text := by
  obtain ⟨d, d', hd, hd', h⟩ := h
  exact ⟨d', d, hd', hd, h.symm⟩

theorem readText_eq_ok_iff {α : Type} {read : Site → Read α} {text : String} {a : α} :
    readText read text = .ok a ↔ ∃ d, Document.parse? text = some d ∧ read (.root d) = .ok a := by
  rw [readText]
  cases Document.parse? text with
  | none => simp
  | some d => simp [mapError_eq_ok]

end JobConfig.Yaml

namespace JobConfig.Fields

open Yaml (Site Document)

variable {α : Type} {fs : Fields Site α}

/-- A record is read alike from texts with its entries in any order. -/
theorem Local.readText_of_reordered (h : fs.Local) {kind : String} {strict : Bool}
    {text text' : String} (ht : Yaml.Reordered text text') {a : α}
    (ha : Yaml.readText (fs.read kind strict) text = .ok a) :
    Yaml.readText (fs.read kind strict) text' = .ok a := by
  obtain ⟨d, d', hd, hd', ⟨tag, tag', es, es', hr, hr', hp⟩, hf⟩ := ht
  obtain ⟨d₀, hd₀, ha⟩ := Yaml.readText_eq_ok_iff.mp ha
  cases hd.symm.trans hd₀
  -- The first document, with the entries of the second one.
  let mid : Site := ⟨d, .map tag' es', [], Yaml.depthLimit⟩
  have hs : Source.IsMapping (Site.root d) ((Site.root d).entrySites es) := fun expected => by
    show Site.readEntries expected ⟨d, d.root, [], Yaml.depthLimit⟩ = _
    rw [hr]
    rfl
  have hm : Source.IsMapping mid (mid.entrySites es') := fun expected => rfl
  have hmid : fs.read kind strict mid = .ok a := read_of_perm hs hm (hp.map _) ha
  have halike : mid.Alike (.root d') := ⟨hr'.symm, rfl, rfl, hf⟩
  exact Yaml.readText_eq_ok_iff.mpr ⟨d', hd', (h.read kind strict).ok halike hmid⟩

end JobConfig.Fields

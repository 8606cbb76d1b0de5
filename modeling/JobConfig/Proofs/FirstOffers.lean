import JobConfig.Proofs.ParameterRoundTrip
import JobConfig.Proofs.ParameterTables

/-!
# Parameters that are offered to a list

Parameters are offered to a list one after the other (`Parameters.afterOffers`). Those whose names
are taken are refused, and the list goes on as it was. So whatever is offered, the list holds for
each name the parameter that was offered first under it, in the order of these first offers
(`Parameters.HoldsFirst`): an offer keeps to that (`Parameters.HoldsFirst.offer`), and therefore so
do any number of them (`Parameters.HoldsFirst.afterOffers`). A list that is put together at once
takes all of them or, at the first name that is repeated, none
(`Parameters.first_offers_held`).

All of this is so whether the names are those of the parameters in a list or the keys of a
dictionary into which each parameter is put under its own name (`Parameters.afterOffers_keyed`).
-/

namespace JobConfig

namespace Parameters

/-- The list after an offer, whether or not the parameter is taken. -/
def offer (ps : Parameters) (q : Parameter) : Parameters :=
  ((addInPlace q).on ps).2

/-- The list after offers, one after the other. -/
def afterOffers (ps : Parameters) (qs : List Parameter) : Parameters :=
  qs.foldl offer ps

/-- The parameter that is offered first under a name. -/
def firstOffer? (name : String) (offered : List Parameter) : Option Parameter :=
  offered.find? fun p => p.name = name

/-- The parameters that are offered first under their names, in order. -/
def firstOffers (offered : List Parameter) : List Parameter :=
  (parameterNames offered).eraseDups.filterMap fun name => firstOffer? name offered

/-- The list holds for each name the parameter that was offered first under it, in the order of the
first offers. -/
structure HoldsFirst (ps : Parameters) (offered : List Parameter) : Prop where
  names_eq : ps.names = (parameterNames offered).eraseDups
  get?_eq (name : String) : ps.get? name = firstOffer? name offered

variable {ps ps' : Parameters} {offered qs : List Parameter} {p q : Parameter} {e : BuildError}

/-! ## Offers -/

theorem add_eq_error_iff : ps.add p = .error e ↔ p.name ∈ ps.names ∧ e = .duplicateName p.name := by
  by_cases h : p.name ∈ ps.names
  · simp [add_of_mem h, h, eq_comm]
  · obtain ⟨ps', hps⟩ := exists_add h
    simp [hps, h]

theorem on_addInPlace_of_mem (h : p.name ∈ ps.names) :
    (addInPlace p).on ps = (.error (.duplicateName p.name), ps) := by
  rw [on_addInPlace, add_of_mem h]
  rfl

theorem on_addInPlace_of_add (h : ps.add p = .ok ps') : (addInPlace p).on ps = (.ok (), ps') := by
  rw [on_addInPlace, h]
  rfl

theorem offer_of_mem (h : p.name ∈ ps.names) : ps.offer p = ps := by
  rw [offer, on_addInPlace_of_mem h]

theorem offer_of_add (h : ps.add p = .ok ps') : ps.offer p = ps' := by
  rw [offer, on_addInPlace_of_add h]

theorem parameterNames_append_singleton (qs : List Parameter) (q : Parameter) :
    parameterNames (qs ++ [q]) = parameterNames qs ++ [q.name] := by
  simp [parameterNames]

theorem firstOffer?_append_singleton (name : String) (offered : List Parameter) (q : Parameter) :
    firstOffer? name (offered ++ [q]) =
      (firstOffer? name offered).or (if q.name = name then some q else none) := by
  by_cases h : q.name = name <;> simp [firstOffer?, List.find?_append, h]

theorem firstOffer?_isSome_iff {name : String} :
    (firstOffer? name offered).isSome = true ↔ name ∈ parameterNames offered := by
  simp [firstOffer?, parameterNames, List.find?_isSome]

/-! ## What a list holds -/

/-- A list is what its names have, in their order. -/
theorem items_eq_filterMap (ps : Parameters) : ps.items = ps.names.filterMap ps.get? := by
  have hg : ∀ p ∈ ps.items, ps.get? p.name = some p := fun p hp => get?_eq_some_iff.mpr ⟨hp, rfl⟩
  rw [names, parameterNames, List.filterMap_map, List.filterMap_congr (g := some)]
  · exact List.filterMap_some.symm
  · exact hg

namespace HoldsFirst

theorem mem_names_iff (h : ps.HoldsFirst offered) {name : String} :
    name ∈ ps.names ↔ name ∈ parameterNames offered := by
  rw [h.names_eq, List.mem_eraseDups]

theorem items_eq (h : ps.HoldsFirst offered) : ps.items = firstOffers offered := by
  rw [items_eq_filterMap, h.names_eq, funext h.get?_eq]
  rfl

theorem items_eq_nil_iff (h : ps.HoldsFirst offered) : ps.items = [] ↔ offered = [] := by
  have hn : ps.names = [] ↔ parameterNames offered = [] := by
    simp only [List.eq_nil_iff_forall_not_mem, h.mem_names_iff]
  rwa [names, parameterNames, parameterNames, List.map_eq_nil_iff, List.map_eq_nil_iff] at hn

theorem empty : HoldsFirst ∅ [] := ⟨rfl, fun _ => rfl⟩

/-- An offer under a name that is taken changes nothing, and any other one comes last. -/
theorem offer (h : ps.HoldsFirst offered) (q : Parameter) :
    (ps.offer q).HoldsFirst (offered ++ [q]) := by
  by_cases hq : q.name ∈ parameterNames offered
  · rw [offer_of_mem (h.mem_names_iff.mpr hq)]
    constructor
    · rw [parameterNames_append_singleton, eraseDups_append_singleton, if_pos hq, h.names_eq]
    · intro name
      rw [firstOffer?_append_singleton, h.get?_eq]
      split
      · rename_i hn
        obtain ⟨p, hp⟩ := Option.isSome_iff_exists.mp (firstOffer?_isSome_iff.mpr (hn ▸ hq))
        rw [hp, Option.some_or]
      · rw [Option.or_none]
  · obtain ⟨ps', ha⟩ := exists_add fun hm => hq (h.mem_names_iff.mp hm)
    rw [offer_of_add ha]
    constructor
    · rw [names, items_add ha, parameterNames_append_singleton, parameterNames_append_singleton,
        eraseDups_append_singleton, if_neg hq, ← h.names_eq, names]
    · intro name
      have hg : ps'.get? name = firstOffer? name (ps.items ++ [q]) := by
        rw [← items_add ha]
        rfl
      rw [hg, firstOffer?_append_singleton, firstOffer?_append_singleton, ← h.get?_eq]
      rfl

/-- Whatever is offered, the list holds what was offered first. -/
theorem afterOffers (h : ps.HoldsFirst offered) (qs : List Parameter) :
    (ps.afterOffers qs).HoldsFirst (offered ++ qs) := by
  induction qs generalizing ps offered with
  | nil => rwa [List.append_nil]
  | cons q qs ih =>
    have hq := ih (h.offer q)
    rwa [List.append_assoc, List.singleton_append] at hq

end HoldsFirst

/-! ## Lists that are put together at once -/

/-- Parameters that are all taken are offered one after the other. -/
theorem afterOffers_of_foldlM (h : qs.foldlM add ps = .ok ps') : ps.afterOffers qs = ps' := by
  induction qs generalizing ps with
  | nil =>
    cases h
    rfl
  | cons q qs ih =>
    rw [List.foldlM_cons, bind_eq_ok] at h
    obtain ⟨mid, ha, h⟩ := h
    rw [afterOffers, List.foldl_cons, offer_of_add ha]
    exact ih h

theorem afterOffers_of_ofList (h : ofList qs = .ok ps) : afterOffers ∅ qs = ps :=
  afterOffers_of_foldlM h

theorem holdsFirst_of_ofList (h : ofList qs = .ok ps) : ps.HoldsFirst qs :=
  afterOffers_of_ofList h ▸ HoldsFirst.empty.afterOffers qs

theorem exists_ofList_iff : (∃ ps, ofList qs = .ok ps) ↔ (parameterNames qs).Nodup := by
  constructor
  · rintro ⟨ps, h⟩
    exact items_ofList h ▸ ps.distinct
  · intro hd
    exact ⟨_, foldlM_add qs ∅ hd⟩

/-- The error is that of the first parameter whose name is there before it. -/
theorem ofList_eq_error_iff : ofList qs = .error e ↔
    ∃ front q, front ++ [q] <+: qs ∧ (parameterNames front).Nodup ∧
      q.name ∈ parameterNames front ∧ e = .duplicateName q.name := by
  rw [ofList, foldlM_eq_error_iff]
  refine exists₂_congr fun front q => ⟨?_, ?_⟩
  · rintro ⟨ps, hp, hf, ha⟩
    obtain ⟨hm, he⟩ := add_eq_error_iff.mp ha
    have hi : ps.items = front := items_ofList hf
    exact ⟨hp, hi ▸ ps.distinct, hi ▸ hm, he⟩
  · rintro ⟨hp, hd, hm, he⟩
    exact ⟨_, hp, foldlM_add front ∅ hd, add_eq_error_iff.mpr ⟨hm, he⟩⟩

/-! ## Under their names -/

/-- What is offered to a list may as well be put under its name. -/
theorem afterOffers_keyed (ps : Parameters) (qs : List Parameter) :
    ParameterTable.afterOffers ps.keyed qs = (ps.afterOffers qs).keyed :=
  List.foldl_hom keyed fun l q => congrArg Prod.snd (on_add_keyed q l)

/-- A list that was put together at once, and to which parameters are offered after that, holds for
each name the parameter that was offered first under it, in the order of the first offers, and it is
written like that. An offer is refused exactly if there was one before under the name, and then the
list stays as it is. Putting a list together at once succeeds exactly if no name is repeated, and
comes to the same as the offers one by one; otherwise the error names the first one that is.

Kept as a dictionary, in which each is put under its name and found by it, the parameters are the
same ones in the same order, each under its own name, and the same offers are refused. -/
theorem first_offers_held :
    (∀ init ps qs, ofList init = .ok ps →
      let l := ps.afterOffers qs
      let offered := init ++ qs
      (l.names = (parameterNames offered).eraseDups ∧
        ∀ name, l.get? name = firstOffer? name offered ∧ ∀ p ∈ l.get? name, p.name = name) ∧
      (∀ name, l.contains name = true ↔ name ∈ parameterNames offered) ∧
      l.size = (parameterNames offered).eraseDups.length ∧
      (l.isEmpty = true ↔ offered = []) ∧
      l.items = firstOffers offered ∧
      l.contents = .ofEntries ((firstOffers offered).map fun p => (p.name, p.contents)) ∧
      ∀ q, (∀ e, l.add q = .error e ↔
          q.name ∈ parameterNames offered ∧ e = .duplicateName q.name) ∧
        (q.name ∈ parameterNames offered →
          (addInPlace q).on l = (.error (.duplicateName q.name), l))) ∧
    (∀ qs, ((∃ ps, ofList qs = .ok ps) ↔ (parameterNames qs).Nodup) ∧
      (∀ ps, ofList qs = .ok ps → ps = afterOffers ∅ qs ∧ ps.items = qs) ∧
      ∀ e, ofList qs = .error e ↔ ∃ front q, front ++ [q] <+: qs ∧ (parameterNames front).Nodup ∧
        q.name ∈ parameterNames front ∧ e = .duplicateName q.name) ∧
    ∀ init, Work.apart (init.forM ParameterTable.add) ∅ = keyed <$> ofList init ∧
      ∀ ps qs, ofList init = .ok ps →
        let l := ps.afterOffers qs
        let t := ParameterTable.afterOffers ps.keyed qs
        t.keys = l.names ∧ t.entries.map Prod.snd = l.items ∧
        ParameterTable.contents t = l.contents ∧
        (∀ name, t.contains name = l.contains name ∧ t.get? name = l.get? name ∧
          ∀ p ∈ t.get? name, p.name = name) ∧
        ∀ q, (ParameterTable.add q).on t = ((addInPlace q).on l).map id keyed := by
  refine ⟨fun init ps qs h => ?_, fun qs => ⟨exists_ofList_iff, fun ps h => ?_, fun e => ?_⟩,
    fun init => ⟨apart_forM_add_keyed ∅ init, fun ps qs h => ?_⟩⟩
  · intro l offered
    have hl : l.HoldsFirst offered := (holdsFirst_of_ofList h).afterOffers qs
    have hi := hl.items_eq
    refine ⟨⟨hl.names_eq, fun name => ⟨hl.get?_eq name, fun p hp => name_of_get? hp⟩⟩, ?_, ?_, ?_,
      hi, ?_, fun q => ⟨fun e => ?_, fun hq => ?_⟩⟩
    · intro name
      rw [contains, decide_eq_true_iff, hl.mem_names_iff]
    · rw [← hl.names_eq, size, names, parameterNames, List.length_map]
    · rw [isEmpty, List.isEmpty_iff, hl.items_eq_nil_iff]
    · rw [contents, hi]
    · rw [add_eq_error_iff, hl.mem_names_iff]
    · exact on_addInPlace_of_mem (hl.mem_names_iff.mpr hq)
  · exact ⟨(afterOffers_of_ofList h).symm, items_ofList h⟩
  · exact ofList_eq_error_iff
  · intro l t
    have ht : t = l.keyed := afterOffers_keyed ps qs
    rw [ht]
    refine ⟨l.keys_keyed, l.values_keyed, l.contents_keyed, fun name => ?_, (on_add_keyed · l)⟩
    refine ⟨l.contains_keyed name, l.get?_keyed name, fun p hp => ?_⟩
    rw [get?_keyed] at hp
    exact name_of_get? hp

/-- A second `tag` and a second `target` are refused, of which the last comes with another type. -/
theorem first_offers_held_tag :
    let parameter (name : String) (d : Declaration) (h : d.violation? name = none) : Parameter :=
      ⟨name, d, h⟩
    let tag := parameter "tag" ⟨.string, some (.str "20.1"), none, none⟩ (by decide)
    let target := parameter "target" ⟨.enum, none, none, some ["all", "docs"]⟩ (by decide)
    let retries := parameter "retries" ⟨.integer, some (.int 3), none, none⟩ (by decide)
    let tag' := parameter "tag" ⟨.string, none, some "of the image", none⟩ (by decide)
    let target' := parameter "target" ⟨.boolean, none, none, none⟩ (by decide)
    ∃ ps, ofList [tag] = .ok ps ∧
      (ps.afterOffers [target, tag', retries, target']).names = ["tag", "target", "retries"] ∧
      (ps.afterOffers [target, tag', retries, target']).get? "target" = some target ∧
      (ParameterTable.afterOffers ps.keyed [target, tag', retries, target']).get? "target" =
        some target ∧
      ofList [tag, target, tag'] = .error (.duplicateName "tag") := by
  intro parameter tag target retries tag' target'
  obtain ⟨hf, ha, hk⟩ := first_offers_held
  obtain ⟨ps, hps⟩ := (ha [tag]).1.mpr (by decide)
  obtain ⟨⟨hn, hg⟩, -⟩ := hf [tag] ps [target, tag', retries, target'] hps
  obtain ⟨-, -, -, ht, -⟩ := (hk [tag]).2 ps [target, tag', retries, target'] hps
  have hl : (ps.afterOffers [target, tag', retries, target']).get? "target" = some target :=
    (hg "target").1.trans (by decide)
  have he := (ha [tag, target, tag']).2.2 (.duplicateName "tag")
  refine ⟨ps, hps, hn, hl, (ht "target").2.1.trans hl, he.mpr ⟨[tag, target], tag', ?_⟩⟩
  exact ⟨⟨[], rfl⟩, by decide, by decide, rfl⟩

end Parameters

end JobConfig

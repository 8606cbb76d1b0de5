import JobConfig.Proofs.Interpolation

/-!
# What resolving replaces

Resolving walks through sequences and the values of mappings to the texts below them, the leaves of
a value (`Value.leaves`). It goes neither into keys nor, unlike `Value.texts`, into values with a
tag. The leaves are replaced, each on its own, and the tree around them stays (`Value.mapLeaves`);
if a reference in them has no value, the outcome is the error of the first such reference
(`Context.resolveValue_leaves`).
-/

namespace JobConfig

namespace Value

/-! ## Leaves -/

mutual

/-- The texts of a value that are reached through sequences and the values of mappings. -/
def leaves : Value → List String
  | .str text => [text]
  | .seq items => leavesOfItems items
  | .map entries => leavesOfEntries entries
  | _ => []

def leavesOfItems : List Value → List String
  | [] => []
  | v :: rest => leaves v ++ leavesOfItems rest

def leavesOfEntries : List (Value × Value) → List String
  | [] => []
  | (_, v) :: rest => leaves v ++ leavesOfEntries rest

end

mutual

/-- The value with `f text` in place of each leaf `text`. -/
def mapLeaves (f : String → Value) : Value → Value
  | .str text => f text
  | .seq items => .seq (mapLeavesOfItems f items)
  | .map entries => .map (mapLeavesOfEntries f entries)
  | v => v

def mapLeavesOfItems (f : String → Value) : List Value → List Value
  | [] => []
  | v :: rest => mapLeaves f v :: mapLeavesOfItems f rest

def mapLeavesOfEntries (f : String → Value) : List (Value × Value) → List (Value × Value)
  | [] => []
  | (k, v) :: rest => (k, mapLeaves f v) :: mapLeavesOfEntries f rest

end

/-- The names that the leaves refer to, in order. -/
def leafReferences (v : Value) : List String :=
  v.leaves.flatMap Template.references

theorem leaves_seq (items : List Value) : (seq items).leaves = items.flatMap leaves := by
  rw [leaves]
  induction items with
  | nil => rfl
  | cons v items ih => rw [leavesOfItems, ih, List.flatMap_cons]

theorem leaves_map (es : List (Value × Value)) :
    (map es).leaves = es.flatMap fun e => e.2.leaves := by
  rw [leaves]
  induction es with
  | nil => rfl
  | cons e es ih => rw [leavesOfEntries, ih, List.flatMap_cons]

theorem mapLeaves_seq (f : String → Value) (items : List Value) :
    (seq items).mapLeaves f = seq (items.map (mapLeaves f)) := by
  rw [mapLeaves]
  congr 1
  induction items with
  | nil => rfl
  | cons v items ih => rw [mapLeavesOfItems, ih, List.map_cons]

/-- The keys stay, in their order. -/
theorem mapLeaves_map (f : String → Value) (es : List (Value × Value)) :
    (map es).mapLeaves f = map (es.map fun e => (e.1, e.2.mapLeaves f)) := by
  rw [mapLeaves]
  congr 1
  induction es with
  | nil => rfl
  | cons e es ih => rw [mapLeavesOfEntries, ih, List.map_cons]

theorem leafReferences_str (text : String) :
    (str text).leafReferences = Template.references text := by
  rw [leafReferences, leaves, List.flatMap_singleton]

theorem leafReferences_seq (items : List Value) :
    (seq items).leafReferences = items.flatMap leafReferences := by
  rw [leafReferences, leaves_seq, List.flatMap_assoc]
  rfl

theorem leafReferences_map (es : List (Value × Value)) :
    (map es).leafReferences = es.flatMap fun e => e.2.leafReferences := by
  rw [leafReferences, leaves_map, List.flatMap_assoc]
  rfl

/-! ## The walk -/

/-- The values that have no leaves by their form. -/
inductive Leafless : Value → Prop
  | null : Leafless .null
  | bool (b : Bool) : Leafless (.bool b)
  | int (n : Int) : Leafless (.int n)
  | float (x : Double) : Leafless (.float x)
  | tagged (tag : String) (content : Value) : Leafless (.tagged tag content)

theorem sizeOf_item_lt {items : List Value} {v : Value} (h : v ∈ items) :
    sizeOf v < sizeOf (seq items) := by
  have hv := List.sizeOf_lt_of_mem h
  simp only [seq.sizeOf_spec]
  omega

theorem sizeOf_entry_lt {es : List (Value × Value)} {e : Value × Value} (h : e ∈ es) :
    sizeOf e.2 < sizeOf (map es) := by
  obtain ⟨k, v⟩ := e
  have he := List.sizeOf_lt_of_mem h
  simp only [map.sizeOf_spec, Prod.mk.sizeOf_spec] at he ⊢
  omega

/-- Induction along the walk to the leaves. -/
@[elab_as_elim]
theorem walk {P : Value → Prop} (leaf : ∀ text, P (.str text))
    (seq : ∀ items, (∀ v ∈ items, P v) → P (.seq items))
    (map : ∀ es, (∀ e ∈ es, P e.2) → P (.map es)) (leafless : ∀ v, Leafless v → P v) :
    ∀ v, P v
  | .str text => leaf text
  | .seq items => seq items fun v _ => walk leaf seq map leafless v
  | .map es => map es fun e _ => walk leaf seq map leafless e.2
  | .null => leafless _ .null
  | .bool b => leafless _ (.bool b)
  | .int n => leafless _ (.int n)
  | .float x => leafless _ (.float x)
  | .tagged tag content => leafless _ (.tagged tag content)
termination_by v => sizeOf v
decreasing_by
  · exact sizeOf_item_lt ‹_›
  · exact sizeOf_entry_lt ‹_›

variable {ε : Type} {lookup : String → Except ε Literal}

theorem Leafless.resolve_eq {v : Value} (h : v.Leafless) (lookup : String → Except ε Literal) :
    v.resolve lookup = .ok v := by
  cases h <;> rfl

theorem Leafless.mapLeaves_eq {v : Value} (h : v.Leafless) (f : String → Value) :
    v.mapLeaves f = v := by
  cases h <;> rfl

theorem Leafless.leafReferences_eq {v : Value} (h : v.Leafless) : v.leafReferences = [] := by
  cases h <;> rfl

/-- If every leaf can be resolved, the value is, leaf by leaf. -/
theorem resolve_eq_mapLeaves {f : String → Value} {v : Value}
    (h : ∀ text ∈ v.leaves, resolveText lookup text = .ok (f text)) :
    v.resolve lookup = .ok (v.mapLeaves f) := by
  induction v using walk with
  | leaf text => exact h text (by simp [leaves])
  | seq items ih =>
    rw [leaves_seq, List.forall_mem_flatMap] at h
    have hi : resolveItems lookup items = .ok (items.map (mapLeaves f)) :=
      resolveItems_eq_ok.mpr <| List.forall₂_map_right_iff.mpr <| List.forall₂_same.mpr
        fun v hv => ih v hv (h v hv)
    rw [resolve, hi, mapLeaves_seq]
    rfl
  | map es ih =>
    rw [leaves_map, List.forall_mem_flatMap] at h
    have he : resolveEntries lookup es = .ok (es.map fun e => (e.1, e.2.mapLeaves f)) :=
      resolveEntries_eq_ok.mpr <| List.forall₂_map_right_iff.mpr <| List.forall₂_same.mpr
        fun e he => ⟨rfl, ih e he (h e he)⟩
    rw [resolve, he, mapLeaves_map]
    rfl
  | leafless v hv => rw [hv.resolve_eq, hv.mapLeaves_eq]

/-- The leaves are asked for their references from left to right. -/
theorem failure?_resolve_leaves (lookup : String → Except ε Literal) (v : Value) :
    failure? (v.resolve lookup) =
      v.leafReferences.findSome? fun name => failure? (lookup name) := by
  induction v using walk with
  | leaf text => rw [resolve, failure?_resolveText, leafReferences_str]
  | seq items ih =>
    rw [resolve, leafReferences_seq, ← failure?_resolveItems ih]
    simp
  | map es ih =>
    rw [resolve, leafReferences_map, ← failure?_resolveEntries ih]
    simp
  | leafless v hv =>
    rw [hv.resolve_eq, hv.leafReferences_eq]
    rfl

theorem exists_resolveText_of_references {text : String}
    (h : ∀ name ∈ Template.references text, ∃ l, lookup name = .ok l) :
    ∃ w, resolveText lookup text = .ok w := by
  rw [← failure?_eq_none_iff, failure?_resolveText, List.findSome?_eq_none_iff]
  exact fun name hn => failure?_eq_none_iff.mpr (h name hn)

end Value

namespace Context

/-- Resolving replaces the leaves of a value and nothing else: if all references in them have a
value, each leaf becomes what it is resolved to on its own, the value of its single reference or a
text, and the rest of the tree stays. If a reference has none, the outcome is the error of the first
such reference. -/
theorem resolveValue_leaves {ctx : Context} {ps : Parameters} (h : ctx.activeScope = some ps)
    (v : Value) :
    ((∀ name ∈ v.leafReferences, ∃ l, ctx.lookup ps name = .ok l) →
      ∃ f : String → Value, ctx.resolveValue v = .ok (v.mapLeaves f) ∧
        ∀ text ∈ v.leaves, ctx.resolveValue (.str text) = .ok (f text) ∧
          (∀ name, Template.soleReference? text = some name →
            Literal.toValue <$> ctx.lookup ps name = .ok (f text)) ∧
          (Template.soleReference? text = none → Value.str <$> ctx.resolve text = .ok (f text))) ∧
    ∀ before name after e, v.leafReferences = before ++ name :: after →
      (∀ n ∈ before, ∃ l, ctx.lookup ps n = .ok l) → ctx.lookup ps name = .error e →
      ctx.resolveValue v = .error e := by
  constructor
  · intro hall
    rw [Value.leafReferences, List.forall_mem_flatMap] at hall
    have hleaf (text : String) (ht : text ∈ v.leaves) :
        ∃ w, ctx.resolveValue (.str text) = .ok w := by
      rw [resolveValue_eq_resolve h, Value.resolve]
      exact Value.exists_resolveText_of_references (hall text ht)
    choose! f hf using hleaf
    refine ⟨f, ?_, fun text ht => ⟨hf text ht, fun name hs => ?_, fun hs => ?_⟩⟩
    · rw [resolveValue_eq_resolve h]
      refine Value.resolve_eq_mapLeaves fun text ht => ?_
      rw [← hf text ht, resolveValue_eq_resolve h, Value.resolve]
    · rw [← resolveValue_of_soleReference? h hs, hf text ht]
    · rw [← resolveValue_of_not_sole h hs, hf text ht]
  · intro before name after e href hbefore hname
    rw [resolveValue_eq_resolve h, ← failure?_eq_some_iff, Value.failure?_resolve_leaves, href,
      List.findSome?_eq_some_iff]
    exact ⟨before, name, after, rfl, failure?_eq_some_iff.mpr hname,
      fun n hn => failure?_eq_none_iff.mpr (hbefore n hn)⟩

/-- In a mapping, the texts of a sequence are replaced, and a key and a tagged value keep their
references. In a sequence, the second of three references is the first one without a value. -/
theorem resolveValue_leaves_nested :
    let p : Parameter := ⟨"retries", ⟨.integer, some (.int 3), none, none⟩, by decide⟩
    let q : Parameter := ⟨"branch", ⟨.string, none, none, none⟩, by decide⟩
    let ps : Parameters := ⟨[p, q], by decide⟩
    let ctx := Context.flattened.withScope ps
    let key := Value.str "<< parameters.branch >>"
    let kept := Value.tagged "t" (.str "<< parameters.branch >>")
    let sole := "<< parameters.retries >>"
    let mixed := "<<parameters.retries>> of <<parameters.retries>>"
    let v := Value.map [(key, .seq [.str sole, .null, .str mixed]), (.int 1, kept)]
    let w := Value.seq [.str "<<parameters.retries>>, <<parameters.branch>>", .str "<<parameters.p>>"]
    ctx.activeScope = some ps ∧
      ctx.resolveValue v =
        .ok (.map [(key, .seq [.int 3, .null, .str "3 of 3"]), (.int 1, kept)]) ∧
      ctx.resolveValue w = .error (.unresolved "branch" .noValue) := by
  intro p q ps ctx key kept sole mixed v w
  have hscope : ctx.activeScope = some ps := rfl
  obtain ⟨hreplaced, -⟩ := resolveValue_leaves hscope v
  obtain ⟨-, hfirst⟩ := resolveValue_leaves hscope w
  have hretries : ctx.lookup ps "retries" = .ok (.int 3) := by decide +kernel
  have hbranch : ctx.lookup ps "branch" = .error (.unresolved "branch" .noValue) := by
    decide +kernel
  have hv : v.leafReferences = ["retries", "retries", "retries"] := by decide +kernel
  have hw : w.leafReferences = ["retries"] ++ "branch" :: ["p"] := by decide +kernel
  obtain ⟨f, hr, hf⟩ := hreplaced (by simp [hv, hretries])
  have hsole : f sole = .int 3 :=
    Except.ok.inj <| (hf sole (by decide +kernel)).1.symm.trans (by decide +kernel)
  have hmixed : f mixed = .str "3 of 3" :=
    Except.ok.inj <| (hf mixed (by decide +kernel)).1.symm.trans (by decide +kernel)
  refine ⟨hscope, ?_, hfirst _ _ _ _ hw (by simp [hretries]) hbranch⟩
  rw [hr, ← hsole, ← hmixed]
  rfl

end Context

end JobConfig

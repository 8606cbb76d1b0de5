import JobConfig.Proofs.Splicing
import JobConfig.Proofs.Written

/-!
# The texts of a value

References to parameters stand in the texts of a value, keys of mappings apart (`Value.texts`), and
`Value.references` are the names that they refer to, from left to right. Resolving a value asks for
these names and for no others: two lookups that answer them alike give the same outcome
(`Value.Simple.resolve_congr`), and the outcome is an error exactly if one of the names has no
answer, the error of the first of them (`Value.Simple.failure?_resolve`).
-/

namespace JobConfig

/-! ## Texts -/

namespace Value

mutual

/-- The texts of a value, at any depth, keys of mappings apart. -/
def texts : Value → List String
  | .str text => [text]
  | .seq items => textsOfItems items
  | .map entries => textsOfEntries entries
  | .tagged _ content => texts content
  | _ => []

def textsOfItems : List Value → List String
  | [] => []
  | v :: rest => texts v ++ textsOfItems rest

def textsOfEntries : List (Value × Value) → List String
  | [] => []
  | (_, v) :: rest => texts v ++ textsOfEntries rest

end

theorem texts_seq (items : List Value) : (seq items).texts = items.flatMap texts := by
  rw [texts]
  induction items with
  | nil => rfl
  | cons v items ih => rw [textsOfItems, ih, List.flatMap_cons]

theorem texts_map (es : List (Value × Value)) : (map es).texts = es.flatMap fun e => e.2.texts := by
  rw [texts]
  induction es with
  | nil => rfl
  | cons e es ih => rw [textsOfEntries, ih, List.flatMap_cons]

/-- The names that the texts of a value refer to, in order. -/
def references (v : Value) : List String :=
  v.texts.flatMap Template.references

theorem references_str (text : String) : (str text).references = Template.references text := by
  rw [references, texts, List.flatMap_singleton]

theorem references_seq (items : List Value) :
    (seq items).references = items.flatMap references := by
  rw [references, texts_seq, List.flatMap_assoc]
  rfl

theorem references_map (es : List (Value × Value)) :
    (map es).references = es.flatMap fun e => e.2.references := by
  rw [references, texts_map, List.flatMap_assoc]
  rfl

end Value

/-! ## What a text asks for -/

namespace Template

variable {ε : Type}

theorem fill_congr {answer answer' : String → Except ε String} {ps : List Piece}
    (h : ∀ name ∈ ps.filterMap Piece.name?, answer name = answer' name) :
    fill answer ps = fill answer' ps := by
  induction ps with
  | nil => rfl
  | cons p ps ih =>
    cases p with
    | plain c => rw [fill, fill, ih h]
    | reference w name =>
      rw [names_reference, List.forall_mem_cons] at h
      rw [fill, fill, h.1, ih h.2]

theorem substitute_congr {answer answer' : String → Except ε String} {text : String}
    (h : ∀ name ∈ references text, answer name = answer' name) :
    substitute text answer = substitute text answer' := by
  rw [substitute, substitute, fill_congr h]

theorem failure?_fill (answer : String → Except ε String) (ps : List Piece) :
    failure? (fill answer ps) =
      (ps.filterMap Piece.name?).findSome? fun name => failure? (answer name) := by
  induction ps with
  | nil => rfl
  | cons p ps ih =>
    cases p with
    | plain c => simp [fill, ih]
    | reference w name =>
      rw [fill, failure?_both, ih, names_reference, List.findSome?_cons]
      cases failure? (answer (String.ofList name)) <;> rfl

theorem failure?_substitute (answer : String → Except ε String) (text : String) :
    failure? (substitute text answer) =
      (references text).findSome? fun name => failure? (answer name) := by
  unfold substitute
  split
  · rename_i hr
    rw [hr]
    rfl
  · simp [failure?_fill, references]

end Template

/-! ## What a value asks for -/

namespace Value

variable {ε : Type} {lookup lookup' : String → Except ε Literal}

theorem resolveText_congr {text : String}
    (h : ∀ name ∈ Template.references text, lookup name = lookup' name) :
    resolveText lookup text = resolveText lookup' text := by
  unfold resolveText
  split
  · rename_i name hs
    rw [h name (by simp [Template.references_of_soleReference? hs])]
  · rw [Template.substitute_congr fun name hn => by rw [h name hn]]

theorem failure?_resolveText (lookup : String → Except ε Literal) (text : String) :
    failure? (resolveText lookup text) =
      (Template.references text).findSome? fun name => failure? (lookup name) := by
  unfold resolveText
  split
  · rename_i name hs
    rw [Template.references_of_soleReference? hs]
    simp
  · simp [Template.failure?_substitute]

/-- `refs v` are the names that are asked for in `v`. -/
theorem failure?_resolveItems {refs : Value → List String} {vs : List Value}
    (h : ∀ v ∈ vs, failure? (v.resolve lookup) =
      (refs v).findSome? fun name => failure? (lookup name)) :
    failure? (resolveItems lookup vs) =
      (vs.flatMap refs).findSome? fun name => failure? (lookup name) := by
  induction vs with
  | nil => rfl
  | cons v vs ih =>
    rw [List.forall_mem_cons] at h
    rw [resolveItems, failure?_both, h.1, ih h.2, List.flatMap_cons, List.findSome?_append]

theorem failure?_resolveEntries {refs : Value → List String} {es : List (Value × Value)}
    (h : ∀ e ∈ es, failure? (e.2.resolve lookup) =
      (refs e.2).findSome? fun name => failure? (lookup name)) :
    failure? (resolveEntries lookup es) =
      (es.flatMap fun e => refs e.2).findSome? fun name => failure? (lookup name) := by
  induction es with
  | nil => rfl
  | cons e es ih =>
    obtain ⟨k, v⟩ := e
    rw [List.forall_mem_cons] at h
    rw [resolveEntries, failure?_both, h.1, ih h.2, List.flatMap_cons, List.findSome?_append]

/-- Resolving asks for the references from left to right: it fails exactly if one of them has no
answer, as the first of these does. -/
theorem Simple.failure?_resolve (lookup : String → Except ε Literal) {v : Value} (h : v.Simple) :
    failure? (v.resolve lookup) = v.references.findSome? fun name => failure? (lookup name) := by
  induction h with
  | bool b => rfl
  | int n => rfl
  | str text => rw [resolve, failure?_resolveText, references_str]
  | seq _ ih =>
    rw [resolve, references_seq, ← failure?_resolveItems ih]
    simp
  | map _ ih =>
    rw [resolve, references_map, ← failure?_resolveEntries (List.forall_mem_map.mpr ih)]
    simp

theorem resolveItems_congr {vs : List Value}
    (h : ∀ v ∈ vs, v.resolve lookup = v.resolve lookup') :
    resolveItems lookup vs = resolveItems lookup' vs := by
  induction vs with
  | nil => rfl
  | cons v vs ih =>
    rw [List.forall_mem_cons] at h
    rw [resolveItems, resolveItems, h.1, ih h.2]

theorem resolveEntries_congr {es : List (Value × Value)}
    (h : ∀ e ∈ es, e.2.resolve lookup = e.2.resolve lookup') :
    resolveEntries lookup es = resolveEntries lookup' es := by
  induction es with
  | nil => rfl
  | cons e es ih =>
    rw [List.forall_mem_cons] at h
    rw [resolveEntries, resolveEntries, h.1, ih h.2]

/-- What a value resolves to depends on the answers to its references alone. -/
theorem Simple.resolve_congr {v : Value} (hv : v.Simple)
    (h : ∀ name ∈ v.references, lookup name = lookup' name) :
    v.resolve lookup = v.resolve lookup' := by
  induction hv with
  | bool b => rfl
  | int n => rfl
  | str text =>
    rw [references_str] at h
    rw [resolve, resolve, resolveText_congr h]
  | @seq items _ ih =>
    rw [references_seq, List.forall_mem_flatMap] at h
    rw [resolve, resolve, resolveItems_congr fun v hv => ih v hv (h v hv)]
  | @map es _ ih =>
    rw [references_map, List.flatMap_map, List.forall_mem_flatMap] at h
    rw [resolve, resolve,
      resolveEntries_congr (List.forall_mem_map.mpr fun e he => ih e he (h e he))]

end Value

end JobConfig

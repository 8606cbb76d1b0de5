import JobConfig.Decimal.Notation

/-!
# Document values

A `Value` is a tree of the data that a document can hold: scalars, sequences, mappings whose keys
are values too and whose entries are ordered, and values that carry a tag. Two keys of a mapping
are the same by `Value.same`, which takes mappings without regard to order and numbers as numbers.
-/

namespace JobConfig

/-- A node of a document. -/
inductive Value where
  | null
  | bool (b : Bool)
  | int (n : Int)
  | float (x : Double)
  | str (text : String)
  | seq (items : List Value)
  | map (entries : List (Value × Value))
  | tagged (tag : String) (content : Value)
deriving Repr, Inhabited

namespace Value

/-! ## Equality -/

mutual

/-- Equality as trees. -/
def equal : Value → Value → Bool
  | .null, .null => true
  | .bool a, .bool b => a == b
  | .int a, .int b => a == b
  | .float a, .float b => a == b
  | .str a, .str b => a == b
  | .seq a, .seq b => equalItems a b
  | .map a, .map b => equalEntries a b
  | .tagged s a, .tagged t b => s == t && equal a b
  | _, _ => false

def equalItems : List Value → List Value → Bool
  | [], [] => true
  | a :: as, b :: bs => equal a b && equalItems as bs
  | _, _ => false

def equalEntries : List (Value × Value) → List (Value × Value) → Bool
  | [], [] => true
  | (k, a) :: as, (l, b) :: bs => equal k l && equal a b && equalEntries as bs
  | _, _ => false

end

mutual

theorem equal_iff : ∀ {a b : Value}, equal a b = true ↔ a = b
  | .null, b => by cases b <;> simp [equal]
  | .bool _, b => by cases b <;> simp [equal]
  | .int _, b => by cases b <;> simp [equal]
  | .float _, b => by cases b <;> simp [equal]
  | .str _, b => by cases b <;> simp [equal]
  | .seq as, b => by
    cases b <;> simp [equal]
    exact equalItems_iff
  | .map as, b => by
    cases b <;> simp [equal]
    exact equalEntries_iff
  | .tagged s a, b => by
    cases b <;> simp [equal]
    exact fun _ => equal_iff

theorem equalItems_iff : ∀ {l m : List Value}, equalItems l m = true ↔ l = m
  | [], m => by cases m <;> simp [equalItems]
  | a :: l, m => by
    cases m with
    | nil => simp [equalItems]
    | cons b m => simp [equalItems, equal_iff (a := a), equalItems_iff (l := l)]

theorem equalEntries_iff : ∀ {l m : List (Value × Value)}, equalEntries l m = true ↔ l = m
  | [], m => by cases m <;> simp [equalEntries]
  | (k, a) :: l, m => by
    cases m with
    | nil => simp [equalEntries]
    | cons b m =>
      obtain ⟨k', b⟩ := b
      simp [equalEntries, equal_iff (a := a), equal_iff (a := k), equalEntries_iff (l := l)]

end

instance : DecidableEq Value := fun _ _ =>
  if h : equal _ _ = true then isTrue (equal_iff.mp h) else isFalse fun e => h (equal_iff.mpr e)

/-! ## Keys -/

mutual

/-- Whether two values are the same key of a mapping. -/
def same : Value → Value → Bool
  | .null, .null => true
  | .bool a, .bool b => a == b
  | .int a, .int b => a == b
  | .float a, .float b => a.same b
  | .str a, .str b => a == b
  | .seq a, .seq b => sameItems a b
  | .map a, .map b => a.length == b.length && sameEntries a b
  | .tagged s a, .tagged t b => s == t && same a b
  | _, _ => false

def sameItems : List Value → List Value → Bool
  | [], [] => true
  | a :: as, b :: bs => same a b && sameItems as bs
  | _, _ => false

/-- Every entry of the first list occurs in the second. -/
def sameEntries : List (Value × Value) → List (Value × Value) → Bool
  | [], _ => true
  | (k, a) :: as, bs => bs.any (fun e => same k e.1 && same a e.2) && sameEntries as bs

end

/-- Whether a mapping has a key. -/
def hasKey (key : Value) (entries : List (Value × Value)) : Bool :=
  entries.any fun e => same e.1 key

/-- The entries with `key` set to `value`: in place if the key is there, else at the end. -/
def setKey (key value : Value) : List (Value × Value) → List (Value × Value)
  | [] => [(key, value)]
  | (k, v) :: rest => if same k key then (k, value) :: rest else (k, v) :: setKey key value rest

/-- The mapping of some entries, a later one overwriting an earlier one of the same key. -/
def ofPairs (entries : List (Value × Value)) : Value :=
  .map (entries.foldl (fun es e => setKey e.1 e.2 es) [])

/-! ## Building -/

/-- A mapping with names for keys. -/
def ofEntries (entries : List (String × Value)) : Value :=
  .map (entries.map fun e => (.str e.1, e.2))

/-- A mapping of one entry. -/
def keyed (name : String) (content : Value) : Value :=
  .map [(.str name, content)]

/-- The entries of a record: the fields that are set, in order. -/
def setFields (fields : List (String × Option Value)) : List (String × Value) :=
  fields.filterMap fun f => f.2.map fun v => (f.1, v)

/-- A record written as a mapping of its set fields. -/
def record (fields : List (String × Option Value)) : Value :=
  ofEntries (setFields fields)

/-- A sequence of texts. -/
def strs (texts : List String) : Value :=
  .seq (texts.map .str)

/-- The value without the tags around it. -/
def untag : Value → Value
  | .tagged _ content => content.untag
  | v => v

end Value

end JobConfig

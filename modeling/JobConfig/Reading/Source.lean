import JobConfig.Parallelism
import JobConfig.Dict
import JobConfig.Reading.Error

/-!
# Sources

A definition is read from a `Source`: something that can be asked for a text, a flag, the items of
a sequence, the entries of a mapping. Values in memory and the nodes of a parsed text are sources;
they differ in what they accept, and the readers of definitions are written once for both.

`readList`, `readDict` and `readOptional` read containers, and `within` reports an error that
arises inside a container, and not at one of its values, at the container itself.
-/

namespace JobConfig

/-- Something a definition can be read from. -/
class Source (σ : Type) where
  /-- Where the value stands, if its errors are to tell. -/
  place? : σ → Option Place
  /-- A text. -/
  str : σ → Read String
  /-- A flag. -/
  bool : σ → Read Bool
  /-- A positive number of instances. -/
  parallelism : σ → Read Parallelism
  /-- A number. -/
  float : σ → Read Double
  /-- Whether an optional value is left out. -/
  isUnset : σ → Read Bool
  /-- The items of a sequence. -/
  items : σ → Read (List σ)
  /-- The entries of a mapping, which stands for what the text names. -/
  entries : (expected : String) → σ → Read (List (σ × σ))
  /-- The name of a field, from a mapping's key. -/
  fieldName : σ → Read String
  /-- One of some constants, by its written name. -/
  choice {α : Type} : (named : List (String × α)) → σ → Read α
  /-- The whole value, for a reader that goes by its shape; tags have no place in it. -/
  shape : σ → Read Value
  /-- The whole value as it is. -/
  value : σ → Read Value

namespace Source

variable {σ : Type} [Source σ] {α : Type}

/-- Reports an error inside `s` that has no place yet at `s`. -/
def within (s : σ) (r : Read α) : Read α :=
  Read.placed (place? s) r

/-- A value that may be left out. -/
def readOptional (read : σ → Read α) (s : σ) : Read (Option α) := do
  if ← isUnset s then return none else some <$> read s

/-- A sequence, item by item. -/
def readList (read : σ → Read α) (s : σ) : Read (List α) :=
  within s do
    let is ← items s
    is.mapM read

/-- The entries of a dictionary, one after the other, put into `d`. -/
def readEntries (read : σ → Read α) : Dict α → List (σ × σ) → Read (Dict α)
  | d, [] => .ok d
  | d, (k, v) :: rest => do
    let name ← str k
    let value ← read v
    readEntries read (d.insert name value) rest

/-- A dictionary, entry by entry; a repeated name overwrites in place. -/
def readDict (read : σ → Read α) (s : σ) : Read (Dict α) :=
  within s do
    let es ← entries "a map" s
    readEntries read ∅ es

end Source

end JobConfig

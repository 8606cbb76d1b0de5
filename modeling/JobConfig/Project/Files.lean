import JobConfig.Dict

/-!
# The files of a project

The directory of a project as a tree of named entries, as far as it is looked at: a file with its
text, if that is well-formed, or a folder. Which entries of a folder are definitions is decided by
their names alone (`isDefinitionName`).
-/

namespace JobConfig

/-- The name of a project's directory below its root. -/
def projectFolder : String := ".config-kit"

/-- A file or a folder. -/
inductive FileTree where
  /-- A file, and its text unless the bytes are none. -/
  | file (text : Option String)
  | folder (entries : List (String × FileTree))

namespace FileTree

def emptyFolder : FileTree := .folder []

/-- The entries of a folder. -/
def entries : FileTree → List (String × FileTree)
  | .file _ => []
  | .folder es => es

/-- An entry of a folder. -/
def child? (name : String) (t : FileTree) : Option FileTree :=
  valueAt? name t.entries

/-- The text of a file. -/
def text? : FileTree → Option String
  | .file t => t
  | .folder _ => none

/-- The tree with an entry put at a path; folders on the way are made. Putting a folder where one
is leaves it as it is. -/
def put (new : FileTree) : (path : List String) → FileTree → FileTree
  | [], old =>
    match old, new with
    | .folder es, .folder [] => .folder es
    | _, _ => new
  | name :: path, old =>
    let below := (old.child? name).getD emptyFolder
    .folder (setEntry name (put new path below) old.entries)

/-- Whether a file can be written at a path: below a folder that is there, and not over one. -/
def acceptsFile : (path : List String) → FileTree → Bool
  | [], _ => false
  | [name], .folder es =>
    match valueAt? name es with
    | some (.folder _) => false
    | _ => name ≠ ""
  | name :: path, t =>
    match t.child? name with
    | some below => acceptsFile path below
    | none => false

/-- Inserts an entry into a list that is sorted by name. -/
def insertSorted (e : String × FileTree) : List (String × FileTree) → List (String × FileTree)
  | [] => [e]
  | x :: rest => if x.1 < e.1 then x :: insertSorted e rest else e :: x :: rest

/-- The entries of a folder, by their names. -/
def sorted (t : FileTree) : List (String × FileTree) :=
  t.entries.foldr insertSorted []

end FileTree

/-- What follows the last dot of a file's name, unless nothing stands in front of the dot. -/
def extension? (name : String) : Option String :=
  let cs := name.toList.reverse
  match cs.dropWhile (· ≠ '.') with
  | _ :: _ :: _ => some (String.ofList (cs.takeWhile (· ≠ '.')).reverse)
  | _ => none

/-- Whether a file of this name is a definition. -/
def isDefinitionName (name : String) : Bool :=
  extension? name = some "yaml" || extension? name = some "yml"

end JobConfig

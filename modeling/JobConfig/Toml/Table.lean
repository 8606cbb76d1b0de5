import JobConfig.Dict
import JobConfig.Toml.Text

/-!
# The tables of TOML

A TOML text fills a tree of tables, line by line. `Table.assign` sets a key, and `Table.openTable`
and `Table.openRow` are what headers do; each fails where a key or a table is defined twice.
-/

namespace JobConfig.Toml

/-- How a table came to be. -/
inductive Origin where
  /-- By a header of its own. -/
  | header
  /-- As part of the path of another header. -/
  | path
  /-- As part of a dotted key. -/
  | dotted
deriving DecidableEq, Repr

/-- What stands under a key. -/
inductive Entry where
  | value (v : Value)
  | table (origin : Origin) (entries : List (String × Entry))
  /-- A sequence of tables, of which the last one can be filled. -/
  | rows (done : List (List (String × Entry))) (last : List (String × Entry))

/-- The entries of a table. -/
abbrev Table := List (String × Entry)

namespace Table

/-- Changes the table at the end of a path, making those on the way that are missing. Along a
dotted key (`dotted`), a table with a header of its own is not entered. -/
def descend (dotted : Bool) (change : Origin → Table → Option Table) :
    (path : List String) → Origin → Table → Option Table
  | [], origin, t => change origin t
  | key :: path, _, t => do
    let e ← match valueAt? key t with
      | none =>
        let origin := if dotted then Origin.dotted else .path
        (descend dotted change path origin []).map (.table origin)
      | some (.value _) => none
      | some (.table origin inner) =>
        if dotted && origin = .header then none
        else (descend dotted change path origin inner).map (.table origin)
      | some (.rows done last) => (descend dotted change path .header last).map (.rows done)
    return setEntry key e t

/-- Sets a dotted key, which must be new, and in a table made by dotted keys only. -/
def assign (path : List String) (key : String) (v : Value) (t : Table) : Option Table :=
  let change (origin : Origin) (t : Table) : Option Table :=
    if !path.isEmpty && origin ≠ .dotted then none
    else if (valueAt? key t).isSome then none
    else some (t ++ [(key, .value v)])
  descend true change path .header t

/-- Opens a table by a header. One that is only part of another's path may be opened later. -/
def openTable (path : List String) (key : String) (t : Table) : Option Table :=
  let change (_ : Origin) (t : Table) : Option Table :=
    match valueAt? key t with
    | none => some (t ++ [(key, .table .header [])])
    | some (.table .path inner) => some (setEntry key (.table .header inner) t)
    | _ => none
  descend false change path .header t

/-- Opens one more table of a sequence by a header. -/
def openRow (path : List String) (key : String) (t : Table) : Option Table :=
  let change (_ : Origin) (t : Table) : Option Table :=
    match valueAt? key t with
    | none => some (t ++ [(key, .rows [] [])])
    | some (.rows done last) => some (setEntry key (.rows (done ++ [last]) []) t)
    | _ => none
  descend false change path .header t

end Table

mutual

/-- The value under a key. -/
def Entry.toValue : Entry → Value
  | .value v => v
  | .table _ entries => .map (tableEntries entries)
  | .rows done last => .seq (rowValues done ++ [.map (tableEntries last)])

def tableEntries : List (String × Entry) → List (Value × Value)
  | [] => []
  | (k, e) :: rest => (.str k, e.toValue) :: tableEntries rest

def rowValues : List (List (String × Entry)) → List Value
  | [] => []
  | t :: rest => .map (tableEntries t) :: rowValues rest

end

def Table.toValue (t : Table) : Value :=
  .map (tableEntries t)

end JobConfig.Toml

import SchemaShift.Data
import SchemaShift.Toml.Key

/-! Tables of a TOML text, as far as they are defined.

Tables come from headers, from the paths of headers and from the paths of keys.
Where a table comes from decides what may still add to it: a header completes a
table that was only on the way to another header, and a path of keys adds to
tables of its own kind. -/
namespace SchemaShift
namespace Toml

/-- Where a table comes from. -/
inductive Origin where
  /-- From its own header. -/
  | header
  /-- From a header of a table inside. -/
  | implied
  /-- From a path of keys. -/
  | dotted
  deriving DecidableEq, Repr

/-- A value, a table, or a list of tables of which the last one is open. -/
inductive Tree where
  | leaf (value : Data)
  | table (origin : Origin) (fields : List (String × Tree))
  | series (closed : List Data) (last : List (String × Tree))

namespace Tree

/-- The fields of a table. -/
abbrev Fields := List (String × Tree)

mutual

/-- The data of a tree. -/
def toData : Tree → Data
  | leaf value => value
  | table _ fields => .record (fieldsToData fields)
  | series closed last => .list (closed ++ [.record (fieldsToData last)])

/-- The data of each field. -/
def fieldsToData : List (String × Tree) → List (String × Data)
  | [] => []
  | (key, tree) :: fields => (key, tree.toData) :: fieldsToData fields

end

/-- Sets a field, in its old place if there is one. -/
def put (key : String) (tree : Tree) : Fields → Fields
  | [] => [(key, tree)]
  | (other, old) :: fields =>
    if other = key then (key, tree) :: fields else (other, old) :: put key tree fields

/-- Changes the table at the end of a path; tables that are missing on the way
get the origin `missing`. A path of keys does not pass a table with a header. -/
def changeAt (missing : Origin) (change : Origin → Fields → Option Fields) :
    (path : List String) → Origin → Fields → Option Fields
  | [], origin, fields => change origin fields
  | key :: path, _, fields =>
    match fields.lookup key with
    | none => do
      let inner ← changeAt missing change path missing []
      return put key (table missing inner) fields
    | some (leaf _) => none
    | some (series closed last) => do
      let last ← changeAt missing change path .header last
      return put key (series closed last) fields
    | some (table origin inner) => do
      guard ¬(missing = .dotted ∧ origin = .header)
      let inner ← changeAt missing change path origin inner
      return put key (table origin inner) fields

/-- Adds a value. The path of keys ends in a table of that kind, and the key is
new in it. -/
def assign (path : Path) (value : Data) (fields : Fields) : Option Fields :=
  changeAt .dotted (fun origin inner =>
    if !path.table.isEmpty && origin != .dotted then none
    else if (inner.lookup path.key).isSome then none
    else some (inner ++ [(path.key, leaf value)])) path.table .header fields

/-- Adds the table of a header, or completes one that was only implied. -/
def openTable (path : Path) (fields : Fields) : Option Fields :=
  changeAt .implied (fun _ inner =>
    match inner.lookup path.key with
    | none => some (put path.key (table .header []) inner)
    | some (table .implied old) => some (put path.key (table .header old) inner)
    | some _ => none) path.table .header fields

/-- Adds a table to a list of tables. -/
def openItem (path : Path) (fields : Fields) : Option Fields :=
  changeAt .implied (fun _ inner =>
    match inner.lookup path.key with
    | none => some (put path.key (series [] []) inner)
    | some (series closed last) =>
      some (put path.key (series (closed ++ [.record (fieldsToData last)]) []) inner)
    | some _ => none) path.table .header fields

/-- Adds a value to the table that a header opened last. -/
def assignUnder (header : List String) (path : Path) (value : Data) (fields : Fields) :
    Option Fields :=
  changeAt .implied (fun _ inner => assign path value inner) header .header fields

/-- The table of the paths and values between braces. -/
def ofPairs? (pairs : List (Path × Data)) : Option Fields :=
  pairs.foldlM (fun fields pair => assign pair.1 pair.2 fields) []

end Tree
end Toml
end SchemaShift

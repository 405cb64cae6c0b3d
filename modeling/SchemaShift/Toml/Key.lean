import SchemaShift.Toml.Quoted

/-! Keys of TOML.

A key is bare or quoted on one line. A path is a list of keys with points between
them, and has less than 80 of them. -/
namespace SchemaShift
namespace Toml
namespace Key

/-- Paths and nested values reach no deeper. -/
def maxDepth : Nat := 79

/-- What may stand in a bare key: ASCII letters and digits, `_` and `-`. -/
def isBare (c : Char) : Bool := c.isAlphanum || c == '_' || c == '-'

/-- A bare key. -/
def bare? : Reader (List Char) := fun text =>
  let key := text.takeWhile isBare
  if key.isEmpty then none else some (key, text.dropWhile isBare)

/-- A key. -/
def key? (text : List Char) : Option (String × List Char) := do
  let (key, rest) ← (Quoted.line? text).or (bare? text)
  return (String.ofList key, rest)

/-- A path of at most `limit` keys, with the blanks around them. It has at least
one key: the first one, apart from those after it. -/
def pathUpTo? : (limit : Nat) → List Char → Option ((String × List String) × List Char)
  | 0, _ => none
  | limit + 1, text => do
    let (key, rest) ← key? (skipBlanks text)
    match skipBlanks rest with
    | '.' :: rest =>
      let ((next, keys), rest) ← pathUpTo? limit rest
      return ((key, next :: keys), rest)
    | rest => return ((key, []), rest)

end Key

/-- The keys that lead to a table, and a key in that table. -/
structure Path where
  table : List String
  key : String
  deriving DecidableEq, Repr

namespace Path

/-- The path of a first key and the keys after it. -/
def ofKeys (first : String) : List String → Path
  | [] => ⟨[], first⟩
  | next :: keys =>
    let path := ofKeys next keys
    { path with table := first :: path.table }

/-- All keys of a path. -/
def keys (path : Path) : List String := path.table ++ [path.key]

/-- A path with the blanks around its keys. -/
def read? (text : List Char) : Option (Path × List Char) :=
  (Key.pathUpTo? Key.maxDepth text).map fun ((first, keys), rest) => (ofKeys first keys, rest)

end Path
end Toml
end SchemaShift

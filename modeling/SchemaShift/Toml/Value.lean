import SchemaShift.Toml.Moment
import SchemaShift.Toml.Tree

/-! Values of TOML.

A value is a text, a moment, a number, a truth value, a list in brackets or a
table in braces. Lists may span lines and end with a comma; tables may not.
Nested lists and tables are less than 80 deep. -/
namespace SchemaShift
namespace Toml
namespace Value

/-- A value without parts. -/
def scalar? (text : List Char) : Option (Data × List Char) :=
  match Quoted.any? text with
  | some (value, rest) => some (.text (String.ofList value), rest)
  | none =>
    match ((Moment.skip? text).or (Number.fractional? text)).or (Number.special? text) with
    | some rest => some (.other, rest)
    | none =>
      match Number.integer? text, text with
      | some (value, rest), _ => some (.int value, rest)
      | none, 't' :: 'r' :: 'u' :: 'e' :: rest => some (.bool true, rest)
      | none, 'f' :: 'a' :: 'l' :: 's' :: 'e' :: rest => some (.bool false, rest)
      | none, _ => none

/-- The items of a list up to its closing bracket, at most `limit` of them. -/
def items? (item? : Reader Data) : (limit : Nat) → Reader (List Data)
  | 0, _ => none
  | limit + 1, text =>
    match skipGap false text with
    | ']' :: rest => some ([], rest)
    | text => do
      let (item, rest) ← item? text
      match skipGap false rest with
      | ',' :: rest =>
        let (items, rest) ← items? item? limit rest
        return (item :: items, rest)
      | ']' :: rest => return ([item], rest)
      | _ => none

/-- The paths and values of a table up to its closing brace, at most `limit` of
them and at least one. -/
def pairs? (item? : Reader Data) : (limit : Nat) → Reader (List (Path × Data))
  | 0, _ => none
  | limit + 1, text => do
    let (path, rest) ← Path.read? text
    let rest ← after? '=' rest
    let (item, rest) ← item? (skipBlanks rest)
    match skipBlanks rest with
    | ',' :: rest =>
      let (pairs, rest) ← pairs? item? limit rest
      return ((path, item) :: pairs, rest)
    | '\x7d' :: rest => return ([(path, item)], rest)
    | _ => none

/-- The table up to its closing brace. -/
def record? (item? : Reader Data) (text : List Char) : Option (Data × List Char) :=
  match skipBlanks text with
  | '\x7d' :: rest => some (.record [], rest)
  | text => do
    let (pairs, rest) ← pairs? item? text.length text
    let fields ← Tree.ofPairs? pairs
    return (.record (Tree.fieldsToData fields), rest)

/-- A value that is nested at most `depth` deep. -/
def valueUpTo? : (depth : Nat) → Reader Data
  | depth + 1, '[' :: rest =>
    (items? (valueUpTo? depth) rest.length rest).map fun (items, rest) => (.list items, rest)
  | depth + 1, '\x7b' :: rest => record? (valueUpTo? depth) rest
  | _, text => scalar? text

/-- A value. -/
def read? (text : List Char) : Option (Data × List Char) := valueUpTo? Key.maxDepth text

end Value
end Toml
end SchemaShift

import SchemaShift.Toml.Value

/-! TOML documents.

A document is a list of statements, one a line: headers that open tables, and
keys with values for the table opened last. -/
namespace SchemaShift
namespace Toml

/-- A line of a document that is not blank. -/
inductive Statement where
  /-- The header of a table. -/
  | table (path : Path)
  /-- The header of one more table in a list of tables. -/
  | item (path : Path)
  | assign (path : Path) (value : Data)

namespace Statement

/-- A statement, up to what is left of its line. -/
def read? : List Char → Option (Statement × List Char)
  | '[' :: '[' :: rest => do
    let (path, rest) ← Path.read? rest
    let rest ← after? ']' (← after? ']' rest)
    return (item path, rest)
  | '[' :: rest => do
    let (path, rest) ← Path.read? rest
    let rest ← after? ']' rest
    return (table path, rest)
  | text => do
    let (path, rest) ← Path.read? text
    let rest ← after? '=' rest
    let (value, rest) ← Value.read? (skipBlanks rest)
    return (assign path value, rest)

/-- The statements of a text of at most `limit` lines. -/
def listUpTo? : (limit : Nat) → List Char → Option (List Statement)
  | 0, _ => none
  | limit + 1, text =>
    match afterLine? text with
    | some [] => some []
    | some rest => listUpTo? limit rest
    | none => do
      let (statement, rest) ← read? (skipBlanks text)
      let statements ← listUpTo? limit (← afterLine? rest)
      return statement :: statements

/-- The text without the mark of its byte order. -/
def skipMark : List Char → List Char
  | '\ufeff' :: rest => rest
  | text => text

/-- The statements of a text. A text has no more line ends than characters. -/
def list? (text : String) : Option (List Statement) :=
  listUpTo? (text.length + 1) (skipMark text.toList)

end Statement

/-- A document part way. -/
structure Document where
  fields : Tree.Fields := []
  /-- The keys of the header read last. -/
  header : List String := []

namespace Document

/-- The document after one more statement. -/
def step (d : Document) : Statement → Option Document
  | .table path => (Tree.openTable path d.fields).map fun fields => ⟨fields, path.keys⟩
  | .item path => (Tree.openItem path d.fields).map fun fields => ⟨fields, path.keys⟩
  | .assign path value =>
    (Tree.assignUnder d.header path value d.fields).map fun fields => { d with fields }

/-- The data of a document. -/
def toData (d : Document) : Data := .record (Tree.fieldsToData d.fields)

end Document

/-- The data of a TOML text. -/
def data? (text : String) : Option Data := do
  let document ← (← Statement.list? text).foldlM Document.step {}
  return document.toData

end Toml
end SchemaShift

import SchemaShift.Table

/-! Schemas.

A schema is a named, versioned collection of tables: a base, or a delta that
describes one migration step. Tables from `offset` on are the pending table log.
Beside the tables stands an index from type names to table names, which is put
in order when it is asked. -/
namespace SchemaShift

/-- A named and versioned collection of tables. -/
structure Schema where
  name : String
  /-- The version at creation, or of the delta folded in last. -/
  version : UInt64
  /-- The number of committed tables. -/
  offset : Nat := 0
  flags : Flags := .empty
  tables : Entries Table := { typeName := "schema" }
  /-- The types that tables describe, each with the name of the table. -/
  typeIndex : List (String × String) := []
  /-- The type index is in order. -/
  typeIndexSorted : Bool := false
  /-- A delta has been folded in. -/
  accumulated : Bool := false
  deriving DecidableEq, Repr

namespace Schema

/-! ### Building -/

/-- Adds a table to the type index, if it has a name and describes a type. -/
def registerType (s : Schema) (t : Table) : Schema :=
  match t.name with
  | some name =>
    if t.typeName.isEmpty then s
    else { s with typeIndex := s.typeIndex ++ [(t.typeName, name)], typeIndexSorted := false }
  | none => s

/-- Records an entry of the table log. -/
def record (s : Schema) (slot : Slot Table) : Schema :=
  { s with tables := s.tables.insert slot, flags := s.flags.insert .change }

/-- Adds an owned table to the index and to the log. -/
def push (s : Schema) (t : Table) : Schema := (s.registerType t).record (.owned t)

/-- Creates a table. -/
def createTable (s : Schema) (name : String) : Schema := s.push (.plain name)

/-- Creates a table for the instances of a type. -/
def createTypedTable (s : Schema) (name typeName : String) (size : Nat) : Schema :=
  s.push (.ofType name typeName size)

/-- Adds a shared table to the index and to the log. -/
def insertStatic (s : Schema) (t : Table) : Schema := (s.registerType t).record (.shared t)

/-- Records that table `name` changes; the entry is to be filled by `editLast`. -/
def alterTable (s : Schema) (name : String) : Schema :=
  s.record (.owned ((Table.plain name).insertFlags .change))

/-- Changes the table recorded last. -/
def editLast (s : Schema) (f : Table → Table) : Schema :=
  { s with tables := s.tables.modify (s.tables.length - 1) f }

/-- Records the drop of a table. -/
def dropTable (s : Schema) (name : String) : Schema := s.record (.owned (.dropOf name))

/-- Records the rename of a table. -/
def renameTable (s : Schema) (old new : String) : Schema := s.record (.owned (.renameOf old new))

/-! ### Looking -/

/-- The live table of that name. -/
def find? (s : Schema) (name : String) : Option Table := s.tables.live? name

/-- The order of index entries: by type, then by table. -/
def typeLe (a b : String × String) : Bool := if a.1 == b.1 then decide (a.2 ≤ b.2) else decide (a.1 ≤ b.1)

/-- Puts the type index in order, unless it is. -/
def sortTypes (s : Schema) : Schema :=
  if s.typeIndexSorted then s
  else { s with typeIndex := stableSort typeLe s.typeIndex, typeIndexSorted := true }

/-- The first place in an index in order whose type is not below the given one,
by halving. -/
def typeStart (index : List (String × String)) (typeName : String) : Nat :=
  Entries.bisect (fun i => match index[i]? with
    | some entry => decide (entry.1 < typeName)
    | none => false) 0 index.length

/-- The live table that stands first in the index for a type, with the schema
whose index is in order now. -/
def findType (s : Schema) (typeName : String) : Option Table × Schema :=
  let s := s.sortTypes
  let first := s.typeIndex[typeStart s.typeIndex typeName]?.filter fun entry => entry.1 == typeName
  (first.bind fun entry => s.find? entry.2, s)

end Schema
end SchemaShift

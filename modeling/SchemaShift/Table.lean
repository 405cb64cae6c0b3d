import SchemaShift.Column
import SchemaShift.Entries
import SchemaShift.Fault

/-! Tables.

A table is an entry of its own and an ordered collection of columns. Columns
from `offset` on are the pending column log. A table whose columns are shared is
static and refuses column changes. A table that carries the change flag records
the changes made to it as a log; any other table carries them out. -/
namespace SchemaShift

/-- A table, or a placeholder in a table log. -/
structure Table where
  name : Option String
  oldName : Option String := none
  flags : Flags := .pointer
  /-- The number of committed columns. -/
  offset : Nat := 0
  /-- The place in the creation order that the last arrangement gave. -/
  rank : Nat := 0
  columns : Slot (Entries Column) := .owned {}
  /-- The names of the live foreign key columns; after an arrangement, of those
  that take part in a cycle. -/
  foreigns : List String := []
  deriving DecidableEq, Repr

namespace Table

instance : Entry Table where
  name := Table.name
  oldName := Table.oldName
  flags := Table.flags
  withName t name := { t with name }

/-! ### Building -/

/-- A table without columns. -/
def plain (name : String) : Table := { name := some name }

/-- A table for the instances of a type. -/
def ofType (name typeName : String) (size : Nat) : Table :=
  { name := some name, columns := .owned (.ofType typeName size) }

/-- A table over shared columns. -/
def static (name : String) (columns : Entries Column) : Table :=
  { name := some name, columns := .shared columns }

/-- The log entry for a drop of table `old`. -/
def dropOf (old : String) : Table := { name := none, oldName := some old }

/-- The log entry for a rename of table `old`. -/
def renameOf (old new : String) : Table := { name := some new, oldName := some old }

def insertFlags (t : Table) (flags : Flags) : Table := { t with flags := t.flags.insert flags }

def removeFlags (t : Table) (flags : Flags) : Table := { t with flags := t.flags.remove flags }

/-! ### Looking -/

/-- The columns, shared or not. -/
def entries (t : Table) : Entries Column := t.columns.value

def typeName (t : Table) : String := t.entries.typeName

def size (t : Table) : Nat := t.entries.size

/-- The columns are shared and cannot be changed. -/
def isStatic (t : Table) : Bool := !t.columns.isOwned

/-- The live column of that name. -/
def column? (t : Table) (name : String) : Option Column := t.entries.live? name

def hasColumn (t : Table) (name : String) : Bool := (t.entries.findLive? name).isSome

/-- The live columns with a foreign key, in order. -/
def foreignColumns (t : Table) : List Column := t.entries.values.filter Column.isForeign

/-- The first live integer column of the primary key. -/
def primary? (t : Table) : Option Column :=
  t.entries.values.find? fun c => Entry.isLive c && c.isIntegerPrimary

/-- The columns for a change, unless they are static. -/
def ownedColumns (t : Table) : Except Fault (Entries Column) :=
  match t.columns with
  | .owned columns => .ok columns
  | .shared _ => .error (.staticData (Entry.displayName t))

/-! ### Foreign key names -/

/-- The names of the live foreign key columns, in column order. -/
def collectForeigns (t : Table) : Table :=
  { t with foreigns := t.foreignColumns.filterMap Column.name }

/-- The list without a name. -/
def forget (name : String) (foreigns : List String) : List String := foreigns.filter (· != name)

/-- The list with another name in the place of one. -/
def renameIn (old new : String) (foreigns : List String) : List String :=
  foreigns.map fun name => if name == old then new else name

/-! ### Changing columns -/

/-- Takes the column at `i` out of `columns`; the committed part of the list
shrinks when it lost one. -/
def takeColumn (t : Table) (columns : Entries Column) (i : Nat) : Table :=
  { t with
    columns := .owned (columns.steal i 1).2
    offset := if i < t.offset then t.offset - 1 else t.offset }

/-- Appends a slot to the columns. -/
def appendSlot (t : Table) (s : Slot Column) : Table :=
  { t with columns := .owned (t.entries.insert s) }

/-- Appends a column. A foreign key column is tracked, unless the change is only
recorded. -/
def addColumn (t : Table) (c : Column) : Except Fault Table := do
  let _ ← t.ownedColumns
  let tracked := if c.hasForeign && !t.flags.isChange then c.name else none
  return { t.appendSlot (.owned c) with
    foreigns := match tracked with
      | some name => forget name t.foreigns ++ [name]
      | none => t.foreigns }

/-- Takes the live column of that name out of `columns`, if there is one. -/
def withoutColumn (t : Table) (columns : Entries Column) (name : String) : Table :=
  match columns.findLive? name with
  | some i => t.takeColumn columns i
  | none => t

/-- Replaces the live column of that name, or records the new body. -/
def alterColumn (t : Table) (c : Column) : Except Fault Table := do
  if t.flags.isChange then
    let _ ← t.ownedColumns
    return t.appendSlot (.owned c.alter)
  let some name := c.name | throw (.entryNotFound (Entry.displayName c))
  let columns ← t.ownedColumns
  let kept := forget name t.foreigns
  return { (t.withoutColumn columns name).appendSlot (.owned c) with
    foreigns := if c.hasForeign then kept ++ [name] else kept }

/-- Removes the live column of that name, or records the drop. -/
def dropColumn (t : Table) (name : String) : Except Fault Table := do
  let columns ← t.ownedColumns
  if t.flags.isChange then return t.appendSlot (.owned (.dropOf name))
  return { t.withoutColumn columns name with foreigns := forget name t.foreigns }

/-- Renames the live column of that name, or records the rename. -/
def renameColumn (t : Table) (old new : String) : Except Fault Table := do
  let columns ← t.ownedColumns
  if t.flags.isChange then return t.appendSlot (.owned (.renameOf old new))
  match columns.findLive? old with
  | none => throw (.entryNotFound old)
  | some i =>
    return { t with
      columns := .owned (columns.modify i fun c => { c with name := some new })
      foreigns := renameIn old new t.foreigns }

end Table
end SchemaShift

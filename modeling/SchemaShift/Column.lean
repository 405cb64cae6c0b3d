import SchemaShift.Entry

/-! Columns.

A column describes one field of a table: its storage type, size, flags and
foreign key. A column without a storage type is a placeholder in the column log
of a table: the drop or the rename of another column. -/
namespace SchemaShift

/-- The storage type of a column. -/
inductive ColumnType where
  | int
  | uint
  | int64
  | uint64
  | double
  | timestamp
  | string
  /-- A type of the backend, by name. -/
  | custom (name : String)
  deriving DecidableEq, Repr

namespace ColumnType

def isInteger : ColumnType → Bool
  | int | uint | int64 | uint64 => true
  | _ => false

/-- The type's name as it is shown. -/
def describe : ColumnType → String
  | int => "int"
  | uint => "uint"
  | int64 => "int64"
  | uint64 => "uint64"
  | double => "double"
  | timestamp => "timestamp"
  | string => "string"
  | custom name => name

end ColumnType

/-- The column that a foreign key names, and what happens to the key with it. -/
structure ForeignKey where
  table : String
  column : String
  onDelete : Option String := none
  onUpdate : Option String := none
  deriving DecidableEq, Repr

/-- A column, or a placeholder in a column log. -/
structure Column where
  /-- The current name; a drop placeholder has none. -/
  name : Option String
  /-- The previous name of a drop or rename placeholder. -/
  oldName : Option String := none
  /-- The storage type; placeholders have none. -/
  columnType : Option ColumnType := none
  /-- Where the field stands in the described type. -/
  offset : UInt64 := 0
  flags : Flags := .empty
  /-- Length of text, precision of numbers. -/
  size : UInt32 := 0
  /-- Digits after the decimal point. -/
  digits : UInt32 := 0
  defaultValue : Option String := none
  check : Option String := none
  foreign : Option ForeignKey := none
  /-- The named constraints that the column takes part in. -/
  constraints : List String := []
  deriving DecidableEq, Repr

namespace Column

instance : Entry Column where
  name := Column.name
  oldName := Column.oldName
  flags := Column.flags
  withName c name := { c with name }

/-- A plain column. -/
def plain (name : String) (columnType : ColumnType) : Column :=
  { name := some name, columnType := some columnType }

/-- The log entry for a drop of column `old`. -/
def dropOf (old : String) : Column := { name := none, oldName := some old }

/-- The log entry for a rename of column `old`. -/
def renameOf (old new : String) : Column := { name := some new, oldName := some old }

def insertFlags (c : Column) (flags : Flags) : Column := { c with flags := c.flags.insert flags }

def removeFlags (c : Column) (flags : Flags) : Column := { c with flags := c.flags.remove flags }

/-- Marks the column as the new body of the column of its name. -/
def alter (c : Column) : Column := c.insertFlags .change

/-- Points the foreign key at a column; actions that are set stay. -/
def reference (c : Column) (table column : String) : Column :=
  { c with foreign := some (match c.foreign with
      | some key => { key with table, column }
      | none => { table, column }) }

def removeReference (c : Column) : Column := { c with foreign := none }

/-- Sets the action on delete; without a foreign key nothing happens. -/
def onDelete (c : Column) (action : String) : Column :=
  { c with foreign := c.foreign.map fun key => { key with onDelete := some action } }

/-- Sets the action on update; without a foreign key nothing happens. -/
def onUpdate (c : Column) (action : String) : Column :=
  { c with foreign := c.foreign.map fun key => { key with onUpdate := some action } }

def withConstraints (c : Column) (constraints : List String) : Column := { c with constraints }
def withSize (c : Column) (size : UInt32) : Column := { c with size }
def withDigits (c : Column) (digits : UInt32) : Column := { c with digits }
def withDefault (c : Column) (value : String) : Column := { c with defaultValue := some value }
def withCheck (c : Column) (check : String) : Column := { c with check := some check }
def withOffset (c : Column) (offset : UInt64) : Column := { c with offset }
def primary (c : Column) : Column := c.insertFlags .primary
def unique (c : Column) : Column := c.insertFlags .unique
def nullable (c : Column) : Column := c.insertFlags .nullable

def hasForeign (c : Column) : Bool := c.foreign.isSome

/-- The column takes part in a named constraint. -/
def isConstrained (c : Column) : Bool := !c.constraints.isEmpty

/-- An integer column of the primary key. -/
def isIntegerPrimary (c : Column) : Bool :=
  c.flags.isPrimary && c.columnType.any ColumnType.isInteger

/-- A live column that carries a foreign key. -/
def isForeign (c : Column) : Bool := Entry.isLive c && c.hasForeign

end Column
end SchemaShift

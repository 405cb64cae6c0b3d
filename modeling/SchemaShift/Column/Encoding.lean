import SchemaShift.Column
import SchemaShift.Data

/-! Columns as plain data.

A column is a record of its fields. A storage type is its name, and one of the
backend a record that names it. Reading takes the fields in any order, none of
them twice, and ignores others; what may be null may be left out. Reading back
what was written gives the column that was written. -/
namespace SchemaShift

namespace ColumnType

/-- The storage types with a name of their own. -/
def units : List (String × ColumnType) :=
  [("Int", .int), ("Uint", .uint), ("Int64", .int64), ("Uint64", .uint64), ("Double", .double),
    ("Timestamp", .timestamp), ("String", .string)]

def toData : ColumnType → Data
  | int => .text "Int"
  | uint => .text "Uint"
  | int64 => .text "Int64"
  | uint64 => .text "Uint64"
  | double => .text "Double"
  | timestamp => .text "Timestamp"
  | string => .text "String"
  | custom name => .record [("Custom", .text name)]

/-- A type by its name, alone or as the one field of a record. -/
def ofData? : Data → Option ColumnType
  | .text name => units.lookup name
  | .record [(name, .null)] => units.lookup name
  | .record [("Custom", .text name)] => some (.custom name)
  | _ => none

end ColumnType

namespace ForeignKey

def fieldNames : List String := ["table", "column", "on_delete", "on_update"]

def toData (key : ForeignKey) : Data :=
  .record [("table", .text key.table), ("column", .text key.column),
    ("on_delete", .ofOption .text key.onDelete), ("on_update", .ofOption .text key.onUpdate)]

def ofData? (d : Data) : Option ForeignKey := do
  let [table, column, onDelete, onUpdate] ← d.fields? fieldNames | none
  return {
    table := ← table.bind Data.textOf?
    column := ← column.bind Data.textOf?
    onDelete := ← Data.optional? Data.textOf? onDelete
    onUpdate := ← Data.optional? Data.textOf? onUpdate }

end ForeignKey

namespace Flags

def toData (f : Flags) : Data := .ofWord32 f.bits

def ofData? (d : Data) : Option Flags := d.word32Of?.map Flags.mk

end Flags

namespace Column

def fieldNames : List String :=
  ["name", "old_name", "column_type", "offset", "flags", "size", "digits", "default_value", "check",
    "foreign", "constraints"]

def toData (c : Column) : Data :=
  .record [("name", .ofOption .text c.name), ("old_name", .ofOption .text c.oldName),
    ("column_type", .ofOption ColumnType.toData c.columnType), ("offset", .ofWord64 c.offset),
    ("flags", c.flags.toData), ("size", .ofWord32 c.size), ("digits", .ofWord32 c.digits),
    ("default_value", .ofOption .text c.defaultValue), ("check", .ofOption .text c.check),
    ("foreign", .ofOption ForeignKey.toData c.foreign), ("constraints", .ofTexts c.constraints)]

def ofData? (d : Data) : Option Column := do
  let [name, oldName, columnType, offset, flags, size, digits, defaultValue, check, foreign,
    constraints] ← d.fields? fieldNames | none
  return {
    name := ← Data.optional? Data.textOf? name
    oldName := ← Data.optional? Data.textOf? oldName
    columnType := ← Data.optional? ColumnType.ofData? columnType
    offset := ← offset.bind Data.word64Of?
    flags := ← flags.bind Flags.ofData?
    size := ← size.bind Data.word32Of?
    digits := ← digits.bind Data.word32Of?
    defaultValue := ← Data.optional? Data.textOf? defaultValue
    check := ← Data.optional? Data.textOf? check
    foreign := ← Data.optional? ForeignKey.ofData? foreign
    constraints := ← constraints.bind Data.textsOf? }

end Column
end SchemaShift

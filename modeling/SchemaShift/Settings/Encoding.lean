import SchemaShift.Data
import SchemaShift.Settings

/-! Settings as plain data.

Settings are a record of three records. Every field may be left out and none given
twice, no other field may be there, and a list of values stands for a record. Reading
back what was written gives the settings that were written. -/
namespace SchemaShift
namespace Settings

open Data (ListForm)

namespace RelationSection

def fieldNames : List String := ["chunk_size", "capacity"]

def toData (s : RelationSection) : Data :=
  .record [("chunk_size", .ofWord64 s.chunkSize), ("capacity", .ofWord64 s.capacity)]

def ofData? (form : ListForm) (d : Data) : Option RelationSection := do
  let [chunkSize, capacity] ← d.closedFields? form fieldNames | none
  let default : RelationSection := {}
  return {
    chunkSize := ← Data.defaulted? Data.word64Of? default.chunkSize chunkSize
    capacity := ← Data.defaulted? Data.word64Of? default.capacity capacity }

end RelationSection

namespace MigrationSection

def fieldNames : List String := ["initial_version", "strict_foreign", "clear_flags", "set_flags"]

def toData (s : MigrationSection) : Data :=
  .record [("initial_version", .ofWord64 s.initialVersion), ("strict_foreign", .bool s.strictForeign),
    ("clear_flags", .ofTexts s.clearFlags), ("set_flags", .ofTexts s.setFlags)]

def ofData? (form : ListForm) (d : Data) : Option MigrationSection := do
  let [initialVersion, strictForeign, clearFlags, setFlags] ← d.closedFields? form fieldNames | none
  let default : MigrationSection := {}
  return {
    initialVersion := ← Data.defaulted? Data.word64Of? default.initialVersion initialVersion
    strictForeign := ← Data.defaulted? Data.boolOf? default.strictForeign strictForeign
    clearFlags := ← Data.defaulted? Data.textsOf? default.clearFlags clearFlags
    setFlags := ← Data.defaulted? Data.textsOf? default.setFlags setFlags }

end MigrationSection

namespace DebugSection

def fieldNames : List String := ["log_level", "log_format"]

def toData (s : DebugSection) : Data :=
  .record [("log_level", .ofOption .text s.logLevel), ("log_format", .ofOption .text s.logFormat)]

/-- A list for this section leaves no field out. -/
def complete : Data → Bool
  | .list items => fieldNames.length ≤ items.length
  | _ => true

def ofData? (form : ListForm) (d : Data) : Option DebugSection := do
  guard (complete d)
  let [logLevel, logFormat] ← d.closedFields? form fieldNames | none
  return {
    logLevel := ← Data.optional? Data.textOf? logLevel
    logFormat := ← Data.optional? Data.textOf? logFormat }

end DebugSection

def fieldNames : List String := ["relation", "migration", "debug"]

def toData (s : Settings) : Data :=
  .record [("relation", s.relation.toData), ("migration", s.migration.toData),
    ("debug", s.debug.toData)]

def ofData? (form : ListForm) (d : Data) : Option Settings := do
  let [relation, migration, debug] ← d.closedFields? form fieldNames | none
  return {
    relation := ← Data.defaulted? (RelationSection.ofData? form) {} relation
    migration := ← Data.defaulted? (MigrationSection.ofData? form) {} migration
    debug := ← Data.defaulted? (DebugSection.ofData? form) {} debug }

end Settings
end SchemaShift

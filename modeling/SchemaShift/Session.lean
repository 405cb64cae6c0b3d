import SchemaShift.Schema.Accumulate
import SchemaShift.Schema.Arrange
import SchemaShift.Schema.Commit
import SchemaShift.Schema.ForeignTrace
import SchemaShift.Settings

/-! Migration sessions.

A session drives deltas against one schema. It numbers the deltas, folds them in,
follows foreign keys with a pool of its own and commits with the flags that its
settings name. -/
namespace SchemaShift

/-- Hands out versions one after the other. They are machine words: the greatest one is
followed by zero. -/
structure VersionCounter where
  /-- The version that is handed out next. -/
  peek : UInt64
  deriving DecidableEq, Repr

namespace VersionCounter

/-- The next version, and the counter behind it. -/
def next (c : VersionCounter) : UInt64 × VersionCounter := (c.peek, ⟨c.peek + 1⟩)

end VersionCounter

/-- A schema with what it takes to migrate it. -/
structure Session where
  settings : Settings
  schema : Schema
  versions : VersionCounter
  pool : NodePool Fate
  /-- The flags that a commit clears. -/
  clearMask : Flags
  /-- The flags that a commit sets. -/
  setMask : Flags

namespace Session

/-- What came of a delta. -/
structure Outcome where
  /-- The version of the schema now. -/
  version : UInt64
  /-- The foreign keys that could not be followed. -/
  warnings : List String
  deriving DecidableEq, Repr

/-- Every foreign key was followed. -/
def Outcome.isClean (o : Outcome) : Bool := o.warnings.isEmpty

/-- A session on a schema, with valid settings. -/
def resume (schema : Schema) (versions : VersionCounter) (settings : Settings) :
    Except Fault Session := do
  settings.validate
  let clearMask ← settings.migration.clearMask
  let setMask ← settings.migration.setMask
  let pool := .ofChunkSize settings.relation.chunkSize
  return { settings, schema, versions, pool, clearMask, setMask }

/-- A session on an empty schema, whose version comes before the first one, or is zero
where that is. -/
def start (name : String) (settings : Settings) : Except Fault Session :=
  let first := settings.migration.initialVersion
  resume { name, version := first - min first 1 } ⟨first⟩ settings

/-- An empty delta with the next version. -/
def delta (s : Session) (name : String) : Schema × Session :=
  let (version, versions) := s.versions.next
  ({ name, version }, { s with versions })

/-- Says what came of following foreign keys. When settings are strict a failure
is a fault. -/
def settle (s : Session) (faults : List Fault) : Except Fault Outcome :=
  match Fault.ofTrace? faults with
  | none => .ok ⟨s.schema.version, []⟩
  | some fault =>
    if s.settings.migration.strictForeign then .error fault
    else .ok ⟨s.schema.version, fault.parts.map Fault.message⟩

/-- Folds a delta in and follows the foreign keys. The session is as it is left,
also after a fault. -/
def apply (s : Session) (delta : Schema) : Except Fault Outcome × Session :=
  match s.schema.accumulate delta with
  | (schema, some fault) => (.error fault, { s with schema })
  | (schema, none) =>
    let (schema, faults, pool) := schema.traceForeignWith s.pool s.settings.relation.capacity
    let s := { s with schema, pool }
    (s.settle faults, s)

/-- Ends the pending changes of the schema. -/
def commit (s : Session) : Session :=
  { s with schema := s.schema.clearChanges s.clearMask s.setMask }

/-- The tables in creation order, with the session as it is left. -/
def arrange (s : Session) : List Table × Session :=
  let (tables, schema) := s.schema.arrange
  (tables, { s with schema })

end Session
end SchemaShift

import SchemaShift.Fault
import SchemaShift.Flags
import SchemaShift.RenameGraph

/-! Settings of a migration.

Sizes of the node pool and its graphs, the version to start from, what a commit
does to table flags, and how to log. -/
namespace SchemaShift
namespace Settings

/-- Sizes for following names. -/
structure RelationSection where
  /-- Nodes per chunk of the pool. -/
  chunkSize : UInt64 := NodePool.defaultChunkSize
  /-- The number of heads for which a new graph makes room. -/
  capacity : UInt64 := RenameGraph.defaultCapacity
  deriving DecidableEq, Repr, Inhabited

/-- How deltas are folded in and committed. -/
structure MigrationSection where
  /-- The version of the first delta. -/
  initialVersion : UInt64 := 1
  /-- A foreign key that cannot be traced makes the whole step fail. -/
  strictForeign : Bool := false
  /-- The names of the flags that a commit clears on every table. -/
  clearFlags : List String := []
  /-- The names of the flags that a commit sets on every table. -/
  setFlags : List String := []
  deriving DecidableEq, Repr, Inhabited

/-- What wins over the environment in logging. -/
structure DebugSection where
  logLevel : Option String := none
  logFormat : Option String := none
  deriving DecidableEq, Repr, Inhabited

end Settings

/-- Settings, in three sections. -/
structure Settings where
  relation : Settings.RelationSection := {}
  migration : Settings.MigrationSection := {}
  debug : Settings.DebugSection := {}
  deriving DecidableEq, Repr, Inhabited

namespace Settings

/-- The flags of the given names; the first unknown name is a fault. -/
def maskOf (names : List String) : Except Fault Flags :=
  names.foldlM (fun mask name => match Flags.ofName? name with
    | some flag => .ok (mask.insert flag)
    | none => .error (.badSettings ("unknown flag `" ++ name ++ "`"))) .empty

/-- The flags that a commit clears. -/
def MigrationSection.clearMask (m : MigrationSection) : Except Fault Flags := maskOf m.clearFlags

/-- The flags that a commit sets. -/
def MigrationSection.setMask (m : MigrationSection) : Except Fault Flags := maskOf m.setFlags

/-- A chunk holds some node and every flag has a meaning. -/
def validate (s : Settings) : Except Fault Unit := do
  if s.relation.chunkSize == 0 then
    throw (.badSettings "relation.chunk_size must be at least 1")
  let _ ← s.migration.clearMask
  let _ ← s.migration.setMask

end Settings
end SchemaShift

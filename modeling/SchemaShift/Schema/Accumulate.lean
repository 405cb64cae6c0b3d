import SchemaShift.Schema
import SchemaShift.Table.Accumulate

/-! Folding a delta into a schema.

The entries of the delta are folded in one by one, in order. Before anything is
touched the names of the delta are replayed against the names of the schema, and
a change of a table that will be static at that point is refused. -/
namespace SchemaShift
namespace Schema

/-! ### The replay of names -/

/-- The live names with whether their table is static; of equal names the last
one counts. -/
abbrev Projection := List (String × Bool)

namespace Projection

def without (p : Projection) (name : String) : Projection := p.filter fun entry => entry.1 != name

def insert (p : Projection) (name : String) (isStatic : Bool) : Projection :=
  (name, isStatic) :: p.without name

/-- The live names of a schema. -/
def ofTables (tables : List Table) : Projection :=
  (tables.filter Entry.isLive).foldl (fun p t => match t.name with
    | some name => p.insert name t.isStatic
    | none => p) []

/-- Replays one entry of a delta; a change of a static table is refused. -/
def step (p : Projection) (t : Table) : Except Fault Projection :=
  match Entry.change? t, t.oldName, t.name with
  | some .add, _, some name => .ok (p.insert name t.isStatic)
  | some .alter, _, some name =>
    match p.lookup name with
    | some true => .error (.staticData name)
    | some false => .ok p
    | none => .ok (p.insert name t.isStatic)
  | some .drop, some old, _ => .ok (p.without old)
  | some .rename, some old, some new =>
    match p.lookup old with
    | some isStatic => .ok ((p.without old).insert new isStatic)
    | none => .ok p
  | _, _, _ => .ok p

end Projection

/-- Refuses a delta that would change a static table. -/
def checkStatic (s delta : Schema) : Except Fault Unit := do
  let _ ← delta.tables.values.foldlM Projection.step (Projection.ofTables s.tables.values)

/-! ### The replay of entries -/

/-- Takes the table at `i` out; the committed part of the list shrinks when it
lost one. -/
def takeTable (s : Schema) (i : Nat) : Schema :=
  { s with
    tables := (s.tables.steal i 1).2
    offset := if i < s.offset then s.offset - 1 else s.offset }

/-- Appends a slot to the tables. -/
def appendSlot (s : Schema) (slot : Slot Table) : Schema :=
  { s with tables := s.tables.insert slot }

/-- Takes a table of a delta over as an owned one. -/
def adopt (s : Schema) (t : Table) : Schema :=
  let t := t.collectForeigns
  (s.registerType t).appendSlot (.owned t)

/-- Folds the new body of a table in. The live table of that name moves to the
end; without one the new body is adopted. -/
def applyAlter (s : Schema) (t : Table) : Schema × Option Fault :=
  match t.name.bind s.tables.findLive? with
  | none => (s.adopt t, none)
  | some i =>
    match s.tables.get? i with
    | none => (s.adopt t, none)
    | some existing =>
      let s := s.takeTable i
      match existing.accumulate t with
      | .ok merged => (s.appendSlot (.owned merged), none)
      | .error fault => (s.appendSlot (.owned existing), some fault)

/-- Folds a drop in: the live table of the old name goes, and its types with it. -/
def applyDrop (s : Schema) (slot : Slot Table) : Schema :=
  match slot.value.oldName.bind s.tables.findLive? with
  | none => s.appendSlot slot
  | some i =>
    let name := (s.tables.get? i).bind Table.name
    let s := s.takeTable i
    let s := { s with typeIndex := s.typeIndex.filter fun entry => some entry.2 != name }
    s.appendSlot slot

/-- Gives the live table of the old name its new one, in the type index too. -/
def renameLive (s : Schema) (old new : String) : Schema :=
  match s.tables.findLive? old with
  | none => s
  | some i =>
    { s with
      tables := s.tables.modify i fun t => { t with name := some new }
      typeIndex := s.typeIndex.map fun entry => if entry.2 == old then (entry.1, new) else entry }

/-- Folds a rename in. -/
def applyRename (s : Schema) (slot : Slot Table) : Schema :=
  match slot.value.oldName, slot.value.name with
  | some old, some new => (s.renameLive old new).appendSlot slot
  | _, _ => s.appendSlot slot

/-- Folds one entry of a delta in. An entry without any name is left out. -/
def applyEntry (s : Schema) (slot : Slot Table) : Schema × Option Fault :=
  match Entry.change? slot.value with
  | none => (s, none)
  | some .add => (s.adopt slot.value, none)
  | some .alter => s.applyAlter slot.value
  | some .drop => (s.applyDrop slot, none)
  | some .rename => (s.applyRename slot, none)

/-- Folds entries in up to the first one that fails. -/
def applyEntries (s : Schema) : List (Slot Table) → Schema × Option Fault
  | [] => (s, none)
  | slot :: rest =>
    match s.applyEntry slot with
    | (s, none) => s.applyEntries rest
    | (s, some fault) => (s, some fault)

/-- Collects the foreign keys of every table, in copies that the schema owns. -/
def collectForeigns (s : Schema) : Schema :=
  { s with tables := s.tables.modifyAll Table.collectForeigns }

/-- Folds `delta` into the schema and takes its version over. The first time the
foreign keys of all tables are collected before. A fault comes with the schema
as it is left. -/
def accumulate (s delta : Schema) : Schema × Option Fault :=
  match s.checkStatic delta with
  | .error fault => (s, some fault)
  | .ok () =>
    let s := if s.accumulated then s else s.collectForeigns
    match s.applyEntries delta.tables.slots with
    | (s, none) => ({ s with version := delta.version, accumulated := true }, none)
    | (s, some fault) => (s, some fault)

end Schema
end SchemaShift

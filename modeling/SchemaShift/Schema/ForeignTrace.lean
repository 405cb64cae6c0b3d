import SchemaShift.RenameGraph
import SchemaShift.Schema

/-! Following foreign keys through pending changes.

Every foreign key of a live table is resolved on its own: the name of its table
through the pending table log, the name of its column through the pending column
log of the table found. Keys whose names changed are rewritten afterwards; what
cannot be resolved becomes a fault, and the other keys go on. -/
namespace SchemaShift
namespace Schema

/-- New names for the foreign key of one column. -/
structure Rewrite where
  /-- The position of the table that holds the key. -/
  table : Nat
  column : String
  newTable : Option String
  newColumn : Option String
  deriving DecidableEq, Repr

namespace Rewrite

/-- The key with its new names. -/
def apply (r : Rewrite) (key : ForeignKey) : ForeignKey :=
  { key with
    table := r.newTable.getD key.table
    column := r.newColumn.getD key.column }

/-- Some name is new. -/
def isNeeded (r : Rewrite) : Bool := r.newTable.isSome || r.newColumn.isSome

end Rewrite

/-- What is known part way through a trace. -/
structure Tracing where
  pool : NodePool Fate
  /-- The heads for which every history makes room. -/
  capacity : UInt64
  /-- The column histories built so far, by table name, in the order of building. -/
  histories : List (String × RenameGraph) := []
  rewrites : List Rewrite := []
  faults : List Fault := []

namespace Tracing

def fail (st : Tracing) (fault : Fault) : Tracing := { st with faults := st.faults ++ [fault] }

/-- Notes a rewrite that is needed. -/
def note (st : Tracing) (r : Rewrite) : Tracing :=
  if r.isNeeded then { st with rewrites := st.rewrites ++ [r] } else st

/-- The column history of a table, built when it is first asked for. -/
def history (st : Tracing) (name : String) (t : Table) : RenameGraph × Tracing :=
  match st.histories.lookup name with
  | some g => (g, st)
  | none =>
    let (g, pool) := RenameGraph.ofEntries t.entries t.offset st.pool st.capacity
    (g, { st with pool, histories := st.histories ++ [(name, g)] })

/-- Gives the nodes of all column histories back. -/
def release (st : Tracing) : NodePool Fate :=
  st.histories.foldl (fun pool entry => (entry.2.clear pool).2) st.pool

end Tracing

/-- The new name, where it differs from the old one. -/
def newName? (old new : String) : Option String := if new = old then none else some new

/-- Resolves the column of a key whose table is called `target` now. -/
def traceTarget (s : Schema) (st : Tracing) (r : Rewrite) (target column : String) : Tracing :=
  match s.find? target with
  | none => (st.fail (.entryNotFound target)).note r
  | some t =>
    let (g, st) := st.history target t
    match g.trace? st.pool column with
    | some .dropped => (st.fail (.dropped (target ++ "." ++ column))).note r
    | some (.name new) => st.note { r with newColumn := newName? column new }
    | none => st.note r

/-- Resolves the foreign key of a column of the table at `i`. -/
def traceColumn (s : Schema) (tables : RenameGraph) (i : Nat) (st : Tracing) (c : Column) : Tracing :=
  match c.name, c.foreign with
  | some column, some key =>
    match tables.trace? st.pool key.table with
    | some .dropped => st.fail (.dropped key.table)
    | some (.name new) =>
      s.traceTarget st ⟨i, column, newName? key.table new, none⟩ new key.column
    | none => s.traceTarget st ⟨i, column, none, none⟩ key.table key.column
  | _, _ => st

/-- Resolves the foreign keys of the table at `i`, if it is live. -/
def traceTable (s : Schema) (tables : RenameGraph) (st : Tracing) (entry : Table × Nat) : Tracing :=
  if Entry.isLive entry.1 then
    entry.1.foreignColumns.foldl (s.traceColumn tables entry.2) st
  else st

/-- Rewrites the key of a column. Static tables refuse; a column without a key
stays as it is. -/
def applyRewrite (s : Schema) (r : Rewrite) : Schema × Option Fault :=
  match s.tables.get? r.table with
  | none => (s, some (.entryNotFound r.column))
  | some t =>
    match t.ownedColumns with
    | .error fault => (s, some fault)
    | .ok columns =>
      match columns.findLive? r.column with
      | none => (s, some (.entryNotFound r.column))
      | some i =>
        let columns := columns.modify i fun c => { c with foreign := c.foreign.map r.apply }
        ({ s with tables := s.tables.modify r.table fun t =>
            { t with columns := .owned columns } }, none)

/-- Rewrites keys in order, with the faults of those that refuse. -/
def applyRewrites (s : Schema) : List Rewrite → Schema × List Fault
  | [] => (s, [])
  | r :: rest =>
    let (s, fault) := s.applyRewrite r
    let (s, faults) := s.applyRewrites rest
    (s, fault.toList ++ faults)

/-- Resolves every foreign key, with the rewrites that this asks for and the
pool as it was. -/
def resolve (s : Schema) (pool : NodePool Fate) (capacity : UInt64) :
    List Rewrite × List Fault × NodePool Fate :=
  let (tables, pool) := RenameGraph.ofEntries s.tables s.offset pool capacity
  let st := s.tables.values.zipIdx.foldl (s.traceTable tables) { pool, capacity }
  (st.rewrites, st.faults, (tables.clear st.release).2)

/-- Resolves every foreign key and rewrites those whose names changed. The faults
are those of the keys that could not be resolved and then those of the tables
that refuse. -/
def traceForeignWith (s : Schema) (pool : NodePool Fate) (capacity : UInt64) :
    Schema × List Fault × NodePool Fate :=
  let (rewrites, faults, pool) := s.resolve pool capacity
  let (s, refusals) := s.applyRewrites rewrites
  (s, faults ++ refusals, pool)

/-- Resolves every foreign key with a pool of its own. -/
def traceForeign (s : Schema) : Schema × List Fault :=
  let (s, faults, _) := s.traceForeignWith (.ofChunkSize NodePool.defaultChunkSize) RenameGraph.defaultCapacity
  (s, faults)

end Schema
end SchemaShift

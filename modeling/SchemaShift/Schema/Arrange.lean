import SchemaShift.Schema.Ranking

/-! The creation order of tables.

`Schema.arrange` sorts the tables by name, ranks the live ones and stores the
rank with each. Foreign keys that take part in no cycle leave the list of foreign
key names; a table that keeps one on a cycle is flagged. In the order returned
ranks ascend, and tables of one rank stand by name. -/
namespace SchemaShift
namespace Schema

/-- The reference that a foreign key column makes. -/
def referenceOf (tables : Entries Table) (c : Column) : Option Reference :=
  match c.foreign, c.name with
  | some key, some column =>
    some ⟨key.table, tables.findLive? key.table, column, c.isConstrained⟩
  | _, _ => none

/-- The references of a table, by the name of the target. -/
def references (tables : Entries Table) (t : Table) : List Reference :=
  stableSort (fun a b => decide (a.targetName ≤ b.targetName))
    ((t.foreigns.filterMap t.column?).filterMap (referenceOf tables))

/-- The positions of the live tables. -/
def livePositions (tables : Entries Table) : List Nat :=
  (tables.values.zipIdx.filter fun entry => Entry.isLive entry.1).map Prod.snd

/-- The marks of all tables. -/
def marks (tables : Entries Table) : Ranking.Marks :=
  Ranking.visitAll (tables.values.map (references tables)) (livePositions tables)
    (List.replicate tables.length {})

/-- Stores what the ranking found. -/
def ranked (m : Mark) (t : Table) : Table :=
  let flags := if m.cycle then t.flags.insert .referenceCycle else t.flags
  let flags := if m.constrainedCycle then flags.insert .constraintCycle else flags
  { t with rank := m.rank, foreigns := m.retained, flags := flags.remove .checking }

/-- Stores the marks with the live tables, in copies that the schema owns. -/
def storeMarks (tables : Entries Table) (marks : Ranking.Marks) : Entries Table :=
  { tables with
    slots := tables.slots.mapIdx fun i slot =>
      if Entry.isLive slot.value then slot.modify (ranked (Ranking.markOf marks i)) else slot
    sorted := false }

/-- The tables sorted by name, ranked. -/
def rankTables (s : Schema) : Schema :=
  let tables := s.tables.sort
  { s with tables := (storeMarks tables (marks tables)).sort }

/-- The live tables by rank. -/
def creationOrder (s : Schema) : List Table :=
  stableSort (fun a b => decide (a.rank ≤ b.rank)) (s.tables.values.filter Entry.isLive)

/-- The live tables in creation order, with the schema as it is left. -/
def arrange (s : Schema) : List Table × Schema :=
  let s := s.rankTables
  (s.creationOrder, s)

end Schema
end SchemaShift

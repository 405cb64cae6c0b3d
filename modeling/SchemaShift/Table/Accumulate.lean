import SchemaShift.Table

/-! Column logs.

`Table.accumulate` folds the column log of a delta into a table: new bodies and
drops take the live column of their name out, renames rename it, and every entry
of the log is kept at the end of the columns. `Table.commit` clears the log away
again and makes everything that is left committed. -/
namespace SchemaShift
namespace Table

/-- Takes the live column at `i` out, with its name among the foreign keys. -/
def takeLive (t : Table) (i : Nat) : Table :=
  let taken := (t.entries.get? i).bind Column.name
  let t := t.takeColumn t.entries i
  match taken with
  | some name => { t with foreigns := forget name t.foreigns }
  | none => t

/-- Takes the live column of that name out, if there is one. -/
def takeNamed (t : Table) (name : Option String) : Table :=
  match name.bind t.entries.findLive? with
  | some i => t.takeLive i
  | none => t

/-- Renames the live column of that name, if there is one. -/
def renameLive (t : Table) (old new : String) : Table :=
  match t.entries.findLive? old with
  | some i =>
    { t with
      columns := .owned (t.entries.modify i fun c => { c with name := some new })
      foreigns := renameIn old new t.foreigns }
  | none => t

/-- Tracks the foreign key of a new column. -/
def track (t : Table) (c : Column) : Table :=
  match c.name with
  | some name => if c.hasForeign then { t with foreigns := t.foreigns ++ [name] } else t
  | none => t

/-- Folds one entry of a column log into a table with columns of its own. An
entry without any name is left out. -/
def applyEntry (t : Table) (s : Slot Column) : Table :=
  let c := s.value
  match Entry.change? c with
  | none => t
  | some .add => (t.track c).appendSlot s
  | some .alter => ((t.takeNamed c.name).track c).appendSlot s
  | some .drop => (t.takeNamed c.oldName).appendSlot s
  | some .rename =>
    match c.oldName, c.name with
    | some old, some new => (t.renameLive old new).appendSlot s
    | _, _ => t.appendSlot s

/-- Folds the column log of `delta` into the table. A table that had no column
takes the change flag over. Static columns refuse and nothing changes. -/
def accumulate (t delta : Table) : Except Fault Table := do
  let columns ← t.ownedColumns
  let t := if columns.isEmpty && delta.flags.isChange then t.insertFlags .change else t
  return delta.entries.slots.foldl applyEntry t

/-- Clears the change flag of an owned column. -/
def settleSlot : Slot Column → Slot Column
  | .owned c => .owned (c.removeFlags .change)
  | .shared c => .shared c

/-- The columns without their log. The sorted mark goes with the first owned
column, which is touched. -/
def settle (columns : Entries Column) : Entries Column :=
  let columns := columns.removePlaceholders
  { columns with
    slots := columns.slots.map settleSlot
    sorted := columns.sorted && !columns.slots.any Slot.isOwned }

/-- Ends the pending changes of a table: its own columns lose their log, all
columns are committed, and the flags of `clear` and `set` are applied. -/
def commit (t : Table) (clear set : Flags) : Table :=
  let columns := match t.columns with
    | .owned columns => .owned (settle columns)
    | .shared columns => .shared columns
  collectForeigns { t with
    columns
    offset := columns.value.length
    flags := ((t.flags.remove .change).remove clear).insert set }

end Table
end SchemaShift

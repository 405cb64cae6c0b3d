import SchemaShift.Proofs.ColumnCalls

/-! Building a schema.

A schema is built by calls, and every call appends one entry to its table log: a
table with the column calls made on it, a table to be changed with the column
calls recorded in it, a static table, a drop or a rename (`Schema.values_run`).

Column calls and entries of a column log edit a table in the same few ways: a
column is appended, taken out or renamed, and the list of keys follows
(`Table.Edited`). What every such edit keeps, calls and logs keep. -/
namespace SchemaShift

/-! ### Edits of a table -/

namespace Table
open ColumnCall

/-- Columns of its own were appended, taken out and renamed, and other keys listed. -/
inductive Edited (t : Table) : Table → Prop
  | refl : Edited t t
  | foreigns {t' : Table} (foreigns : List String) : Edited t t' → Edited t { t' with foreigns }
  | append {t' : Table} {columns : Entries Column} (slot : Slot Column) : Edited t t' →
      t'.columns = .owned columns → Edited t (t'.appendSlot slot)
  | take {t' : Table} {columns : Entries Column} (i : Nat) : Edited t t' → t'.columns = .owned columns →
      Edited t (t'.takeColumn columns i)
  | rename {t' : Table} {columns : Entries Column} (i : Nat) (new : String) : Edited t t' →
      t'.columns = .owned columns → Edited t { t' with columns := .owned (columns.modify i (renamed new)) }

variable {t t' : Table} {columns : Entries Column}

/-- Edits leave everything but the columns and what is told of them. -/
theorem Edited.shape (h : Edited t t') : ∃ columns offset foreigns, t' = { t with columns, offset, foreigns } := by
  induction h with
  | refl => exact ⟨_, _, _, rfl⟩
  | foreigns foreigns _ ih =>
    obtain ⟨columns, offset, _, rfl⟩ := ih
    exact ⟨columns, offset, foreigns, rfl⟩
  | append slot _ _ ih =>
    obtain ⟨_, offset, foreigns, rfl⟩ := ih
    exact ⟨_, offset, foreigns, rfl⟩
  | take i _ _ ih =>
    obtain ⟨_, _, foreigns, rfl⟩ := ih
    exact ⟨_, _, foreigns, rfl⟩
  | rename i new _ _ ih =>
    obtain ⟨_, offset, foreigns, rfl⟩ := ih
    exact ⟨_, offset, foreigns, rfl⟩

theorem Edited.trans {t'' : Table} (h : Edited t t') (h' : Edited t' t'') : Edited t t'' := by
  induction h' with
  | refl => exact h
  | foreigns foreigns _ ih => exact .foreigns foreigns ih
  | append slot _ hcolumns ih => exact .append slot ih hcolumns
  | take i _ hcolumns ih => exact .take i ih hcolumns
  | rename i new _ hcolumns ih => exact .rename i new ih hcolumns

theorem Edited.owned (h : Edited t t') (hcolumns : t.columns = .owned columns) :
    ∃ columns', t'.columns = .owned columns' := by
  induction h with
  | refl => exact ⟨columns, hcolumns⟩
  | foreigns foreigns _ ih => exact ih
  | append slot _ _ _ => exact ⟨_, rfl⟩
  | take i _ _ _ => exact ⟨_, rfl⟩
  | rename i new _ _ _ => exact ⟨_, rfl⟩

theorem edited_withoutColumn (hcolumns : t.columns = .owned columns) (name : String) :
    Edited t (t.withoutColumn columns name) := by
  unfold withoutColumn
  split
  · exact .take _ .refl hcolumns
  · exact .refl

/-- A static table refuses every column call. -/
theorem attempt_shared (hcolumns : t.columns = .shared columns) (call : ColumnCall) : t.attempt call = t := by
  cases call with
  | add c => simp only [attempt, run, addColumn, ownedColumns, hcolumns, bind, Except.bind]
  | alter c =>
    simp only [attempt, run, alterColumn, ownedColumns, hcolumns, bind, Except.bind]
    cases t.flags.isChange <;> cases c.name <;> rfl
  | drop name => simp only [attempt, run, dropColumn, ownedColumns, hcolumns, bind, Except.bind]
  | rename old new => simp only [attempt, run, renameColumn, ownedColumns, hcolumns, bind, Except.bind]

/-- **A column call edits the table**, or leaves it as it is. -/
theorem edited_attempt (t : Table) (call : ColumnCall) : Edited t (t.attempt call) := by
  cases hcolumns : t.columns with
  | shared columns =>
    rw [attempt_shared hcolumns]
    exact .refl
  | owned columns =>
    by_cases hflag : t.flags.isChange = true
    · rw [attempt_recorded hcolumns hflag]
      exact .append _ .refl hcolumns
    · have hwithout := edited_withoutColumn hcolumns
      rw [Bool.not_eq_true] at hflag
      cases call with
      | add c =>
        rw [attempt, run, addColumn, ownedColumns, hcolumns]
        exact .foreigns _ (.append _ .refl hcolumns)
      | alter c =>
        rw [attempt, run, alterColumn, ownedColumns, hcolumns, hflag]
        cases c.name with
        | none => exact .refl
        | some name =>
          obtain ⟨columns', hcolumns'⟩ := (hwithout name).owned hcolumns
          exact .foreigns _ (.append _ (hwithout name) hcolumns')
      | drop name =>
        rw [attempt, run, dropColumn, ownedColumns, hcolumns, hflag]
        exact .foreigns _ (hwithout name)
      | rename old new =>
        rw [attempt, run, renameColumn, ownedColumns, hcolumns, hflag]
        dsimp only [bind, Except.bind]
        cases columns.findLive? old with
        | none => exact .refl
        | some i => exact .foreigns _ (.rename i new .refl hcolumns)

theorem edited_callAll (t : Table) (calls : List ColumnCall) : Edited t (t.callAll calls) := by
  induction calls generalizing t with
  | nil => exact .refl
  | cons call rest ih => exact (edited_attempt t call).trans (ih (t.attempt call))

theorem edited_takeNamed (hcolumns : t.columns = .owned columns) (name : Option String) :
    Edited t (t.takeNamed name) := by
  have hentries : t.columns = .owned t.entries := by rw [entries, hcolumns]; rfl
  unfold takeNamed
  split
  · next i _ =>
    dsimp only [takeLive]
    split
    · exact .foreigns _ (.take i .refl hentries)
    · exact .take i .refl hentries
  · exact .refl

theorem Edited.track (h : Edited t t') (c : Column) : Edited t (t'.track c) := by
  unfold Table.track
  split
  · split
    · exact .foreigns _ h
    · exact h
  · exact h

/-- **An entry of a column log edits the table**, too. -/
theorem edited_applyEntry (hcolumns : t.columns = .owned columns) (slot : Slot Column) :
    Edited t (t.applyEntry slot) := by
  have happend : ∀ {t'}, Edited t t' → Edited t (t'.appendSlot slot) := by
    intro t' h
    obtain ⟨columns', hcolumns'⟩ := h.owned hcolumns
    exact .append slot h hcolumns'
  simp only [applyEntry]
  cases Entry.change? slot.value with
  | none => exact .refl
  | some change =>
    cases change with
    | add => exact happend (Edited.refl.track slot.value)
    | alter => exact happend ((edited_takeNamed hcolumns slot.value.name).track slot.value)
    | drop => exact happend (edited_takeNamed hcolumns slot.value.oldName)
    | rename =>
      dsimp only
      split
      · next old new _ _ =>
        refine happend ?_
        have hentries : t.columns = .owned t.entries := by rw [entries, hcolumns]; rfl
        unfold renameLive
        split
        · exact .foreigns _ (.rename _ new .refl hentries)
        · exact .refl
      · exact happend .refl

theorem edited_foldl (hcolumns : t.columns = .owned columns) (slots : List (Slot Column)) :
    Edited t (slots.foldl applyEntry t) := by
  induction slots generalizing t columns with
  | nil => exact .refl
  | cons slot rest ih =>
    have hstep := edited_applyEntry hcolumns slot
    obtain ⟨columns', hcolumns'⟩ := hstep.owned hcolumns
    exact hstep.trans (ih hcolumns')

end Table

/-! ### Calls on a schema -/

/-- A table that stands for itself, with ordinary column calls made on it. -/
inductive Table.Ordinary : Table → Prop
  | plain (name : String) : Ordinary (.plain name)
  | ofType (name typeName : String) (size : Nat) : Ordinary (.ofType name typeName size)
  | static (name : String) (columns : Entries Column) : Ordinary (.static name columns)
  | attempt {t : Table} {call : ColumnCall} : Ordinary t → call.Ordinary → Ordinary (t.attempt call)

/-- A call that builds a schema; column calls are made on the table that it appends. -/
inductive SchemaCall where
  | create (name : String) (calls : List ColumnCall)
  | createTyped (name typeName : String) (size : Nat) (calls : List ColumnCall)
  | insertStatic (t : Table)
  | alter (name : String) (calls : List ColumnCall)
  | changeName (change : NameChange)
  deriving Repr

namespace SchemaCall

/-- The schema after the call. -/
def run (s : Schema) : SchemaCall → Schema
  | create name calls => (s.createTable name).editLast (·.callAll calls)
  | createTyped name typeName size calls => (s.createTypedTable name typeName size).editLast (·.callAll calls)
  | insertStatic t => s.insertStatic t
  | alter name calls => (s.alterTable name).editLast (·.callAll calls)
  | changeName (.drop old) => s.dropTable old
  | changeName (.rename old new) => s.renameTable old new

/-- The schema after calls. -/
def runAll (s : Schema) (calls : List SchemaCall) : Schema := calls.foldl run s

/-- The entry that the call appends. -/
def entry : SchemaCall → Table
  | create name calls => (Table.plain name).callAll calls
  | createTyped name typeName size calls => (Table.ofType name typeName size).callAll calls
  | insertStatic t => t
  | alter name calls => ((Table.plain name).insertFlags .change).callAll calls
  | changeName change => change.table

/-- The drop or the rename that the call records. -/
def change? : SchemaCall → Option NameChange
  | changeName change => some change
  | _ => none

/-- Columns that are handed over stand for themselves, and of tables that are handed over `P` holds. -/
def Handing (P : Table → Prop) : SchemaCall → Prop
  | create _ calls | createTyped _ _ _ calls | alter _ calls => ∀ call ∈ calls, call.Ordinary
  | insertStatic t => P t
  | changeName _ => True

/-- Columns and tables that are handed over stand for themselves. -/
def Ordinary (call : SchemaCall) : Prop := call.Handing Table.Ordinary

end SchemaCall

namespace Schema

variable {s : Schema}

theorem offset_registerType (s : Schema) (t : Table) : (s.registerType t).offset = s.offset := by
  unfold registerType
  split
  · split <;> rfl
  · rfl

/-- What is edited last is what was recorded last. -/
theorem values_editLast (s : Schema) (slot : Slot Table) (f : Table → Table) :
    ((s.record slot).editLast f).tables.values = s.tables.values ++ [f slot.value] := by
  rw [editLast, record, Entries.values_modify, Entries.values_insert, Entries.length_insert, Nat.add_sub_cancel]
  have hlength : s.tables.length = s.tables.values.length := by simp [Entries.length, Entries.values]
  rw [hlength, modify_middle]

/-- **Every call appends its entry** and leaves the number of committed tables. -/
theorem values_run (s : Schema) (call : SchemaCall) :
    (call.run s).tables.values = s.tables.values ++ [call.entry] ∧ (call.run s).offset = s.offset := by
  have hrecord : ∀ (t : Table) (slot : Slot Table), ((s.registerType t).record slot).tables.values =
      s.tables.values ++ [slot.value] := by
    intro t slot
    rw [record, Entries.values_insert, tables_registerType]
  have hedit : ∀ (t : Table) (f : Table → Table), ((s.push t).editLast f).tables.values =
      s.tables.values ++ [f t] := by
    intro t f
    rw [push, values_editLast, tables_registerType]
    rfl
  cases call with
  | create name calls => exact ⟨hedit _ _, offset_registerType s _⟩
  | createTyped name typeName size calls => exact ⟨hedit _ _, offset_registerType s _⟩
  | insertStatic t => exact ⟨hrecord t (.shared t), offset_registerType s t⟩
  | alter name calls => exact ⟨values_editLast s _ _, rfl⟩
  | changeName change => cases change <;> exact ⟨Entries.values_insert _ _, rfl⟩

theorem ordered_run (s : Schema) (call : SchemaCall) : (call.run s).tables.Ordered := by
  have hrecord : ∀ (s : Schema) (slot : Slot Table), (s.record slot).tables.Ordered := fun _ _ =>
    Entries.ordered_of_unsorted rfl
  cases call with
  | create name calls => exact (hrecord _ _).modify _ _
  | createTyped name typeName size calls => exact (hrecord _ _).modify _ _
  | insertStatic t => exact hrecord _ _
  | alter name calls => exact (hrecord _ _).modify _ _
  | changeName change => cases change <;> exact hrecord _ _

end Schema

/-- A table that stands for itself is live. -/
theorem Table.Ordinary.isLive {t : Table} (h : t.Ordinary) : Entry.isLive t = true := by
  induction h with
  | plain name => rfl
  | ofType name typeName size => rfl
  | static name columns => rfl
  | @attempt t call _ _ ih =>
    obtain ⟨columns, offset, foreigns, hshape⟩ := (edited_attempt t call).shape
    rw [hshape]
    exact ih

/-- Only a drop or a rename appends a placeholder. -/
theorem SchemaCall.entry_cases {call : SchemaCall} (h : call.Ordinary) :
    (call.change? = none ∧ Entry.isLive call.entry = true) ∨
      ∃ change, call.change? = some change ∧ call.entry = change.table := by
  have hedited : ∀ {t : Table}, Entry.isLive t = true → ∀ calls, Entry.isLive (t.callAll calls) = true := by
    intro t hlive calls
    obtain ⟨columns, offset, foreigns, hshape⟩ := (Table.edited_callAll t calls).shape
    rw [hshape]
    exact hlive
  cases call with
  | create name calls => exact .inl ⟨rfl, hedited rfl calls⟩
  | createTyped name typeName size calls => exact .inl ⟨rfl, hedited rfl calls⟩
  | insertStatic t => exact .inl ⟨rfl, Table.Ordinary.isLive h⟩
  | alter name calls => exact .inl ⟨rfl, hedited rfl calls⟩
  | changeName change => exact .inr ⟨change, rfl, rfl⟩

end SchemaShift

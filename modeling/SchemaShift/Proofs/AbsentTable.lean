import SchemaShift.Proofs.SchemaCalls

/-! Changing a table that is not there.

A change of a table that is not there brings the table in, and its column log is taken
over as it was recorded; a commit then clears drops and renames away and leaves every
column that was ever handed over. Where the delta creates the table before, the log is
folded in, and the commit leaves what the calls ask for (`Schema.accumulate_absent`).
The two tables have the same columns exactly where no call takes an earlier column away
and every column ends under the name that it came with. -/
namespace SchemaShift

/-! ### Calls that leave earlier columns alone -/

namespace ColumnCall
open Table

/-- The name of the column that the call takes away. -/
def displaced? : ColumnCall → Option String
  | alter c => c.name
  | drop name => some name
  | add _ | rename _ _ => none

/-- The call finds a column to take away. -/
def Displaces (call : ColumnCall) (columns : List (Slot Column)) : Prop :=
  ∃ name ∈ call.displaced?, ∃ slot ∈ columns, isNamed name slot = true

/-- No call finds a column to take away. -/
def Undisturbed : List ColumnCall → List (Slot Column) → Prop
  | [], _ => True
  | call :: rest, columns => ¬ call.Displaces columns ∧ Undisturbed rest (call.on columns)

variable {call : ColumnCall} {calls : List ColumnCall} {columns : List (Slot Column)}

theorem mem_renameFirst {old new : String} {slot : Slot Column} (h : slot ∈ renameFirst old new columns) :
    slot ∈ columns ∨ ∃ slot' ∈ columns, slot = settleSlot (slot'.modify (renamed new)) := by
  induction columns with
  | nil => exact absurd h List.not_mem_nil
  | cons first rest ih =>
    rw [renameFirst] at h
    split at h
    · rcases List.mem_cons.mp h with rfl | h
      · exact .inr ⟨first, List.mem_cons_self, rfl⟩
      · exact .inl (List.mem_cons_of_mem _ h)
    · rcases List.mem_cons.mp h with rfl | h
      · exact .inl List.mem_cons_self
      · rcases ih h with h | ⟨slot', hslot', rfl⟩
        · exact .inl (List.mem_cons_of_mem _ h)
        · exact .inr ⟨slot', List.mem_cons_of_mem _ hslot', rfl⟩

/-- Columns that are not marked as changes. -/
def Plain (columns : List (Slot Column)) : Prop := ∀ slot ∈ columns, slot.value.flags.isChange = false

theorem settle_renamed {slot : Slot Column} (h : slot.value.flags.isChange = false) (new : String) :
    settleSlot (slot.modify (renamed new)) = .owned (renamed new slot.value) := by
  have hflags : (renamed new slot.value).flags.isChange = false := h
  exact settleSlot_unmarked hflags

theorem Plain.on (h : Plain columns) (hcall : call.Unmarked) : Plain (call.on columns) := by
  intro slot hslot
  cases call with
  | add c =>
    rcases List.mem_append.mp hslot with hslot | hslot
    · exact h slot hslot
    · rw [List.mem_singleton.mp hslot]
      exact hcall c rfl
  | alter c =>
    rcases List.mem_append.mp hslot with hslot | hslot
    · exact h slot (List.mem_of_mem_eraseP hslot)
    · rw [List.mem_singleton.mp hslot]
      exact hcall c rfl
  | drop name => exact h slot (List.mem_of_mem_eraseP hslot)
  | rename old new =>
    rcases mem_renameFirst hslot with hslot | ⟨slot', hslot', rfl⟩
    · exact h slot hslot
    · rw [settle_renamed (h slot' hslot')]
      exact h slot' hslot'

/-- The column without its name. -/
def unnamed (c : Column) : Column := { c with name := none }

theorem map_renameFirst (h : Plain columns) (old new : String) :
    (renameFirst old new columns).map (fun slot => unnamed slot.value) = columns.map fun slot => unnamed slot.value := by
  induction columns with
  | nil => rfl
  | cons slot rest ih =>
    rw [renameFirst]
    split
    · rw [settle_renamed (h slot List.mem_cons_self)]
      rfl
    · rw [List.map_cons, List.map_cons, ih fun slot hslot => h slot (List.mem_cons_of_mem _ hslot)]

theorem length_renameFirst (old new : String) (columns : List (Slot Column)) :
    (renameFirst old new columns).length = columns.length := by
  induction columns with
  | nil => rfl
  | cons slot rest ih =>
    rw [renameFirst]
    split
    · rfl
    · rw [List.length_cons, List.length_cons, ih]

/-- A call that takes no column away appends the column that is handed over, and that is all but for
names. -/
theorem map_on (h : Plain columns) (hordinary : call.Ordinary) (hfind : ¬ call.Displaces columns) :
    (call.on columns).map (fun slot => unnamed slot.value) =
      (columns.map fun slot => unnamed slot.value) ++ call.column?.toList.map unnamed := by
  have hkeep : ∀ {name : String}, call.displaced? = some name → columns.eraseP (isNamed name) = columns := by
    intro name hname
    exact List.eraseP_of_forall_not fun slot hslot hnamed => hfind ⟨name, hname, slot, hslot, hnamed⟩
  cases call with
  | add c => simp [on, column?, Slot.value]
  | alter c =>
    obtain ⟨name, hname⟩ := Option.isSome_iff_exists.mp (hordinary c rfl).1
    rw [on, hname, Option.getD_some, hkeep hname]
    simp [column?, Slot.value]
  | drop name =>
    rw [on, hkeep rfl]
    simp [column?]
  | rename old new =>
    rw [on, map_renameFirst h]
    simp [column?]

/-- A call that names no column to take away takes none. -/
theorem not_displaces (h : call.displaced? = none) (columns : List (Slot Column)) : ¬ call.Displaces columns := by
  rintro ⟨name, hname, _⟩
  rw [h] at hname
  exact absurd hname (by simp)

/-- One that does take a column away leaves fewer columns than were handed over. -/
theorem length_on (hordinary : call.Ordinary) (columns : List (Slot Column)) :
    (call.on columns).length ≤ columns.length + call.column?.toList.length ∧
      ((call.on columns).length = columns.length + call.column?.toList.length → ¬ call.Displaces columns) := by
  have herase : ∀ {name : String}, call.displaced? = some name →
      (columns.eraseP (isNamed name)).length ≤ columns.length ∧
        ((columns.eraseP (isNamed name)).length = columns.length → ¬ call.Displaces columns) := by
    intro name hname
    refine ⟨List.length_eraseP_le, ?_⟩
    rintro hlength ⟨name', hname', slot, hslot, hnamed⟩
    obtain rfl := Option.some.inj (hname.symm.trans hname')
    have hpos := List.length_pos_of_mem hslot
    have hshort := List.length_eraseP_of_mem hslot hnamed
    omega
  cases call with
  | add c => exact ⟨by simp [on, column?], fun _ => not_displaces rfl columns⟩
  | alter c =>
    obtain ⟨name, hname⟩ := Option.isSome_iff_exists.mp (hordinary c rfl).1
    obtain ⟨hle, hnone⟩ := herase hname
    rw [on, hname]
    simp only [Option.getD_some, List.length_append, List.length_singleton, column?, Option.toList_some]
    exact ⟨by omega, fun hlength => hnone (by omega)⟩
  | drop name => exact herase rfl
  | rename old new => exact ⟨(length_renameFirst old new columns).le, fun _ => not_displaces rfl columns⟩

/-- The columns that are handed over. -/
def handed (calls : List ColumnCall) : List Column := calls.filterMap column?

theorem handed_cons (call : ColumnCall) (calls : List ColumnCall) :
    handed (call :: calls) = call.column?.toList ++ handed calls := by
  rw [handed, List.filterMap_cons]
  cases call.column? <;> rfl

theorem map_onAll (hordinary : ∀ call ∈ calls, call.Ordinary) (hunmarked : ∀ call ∈ calls, call.Unmarked)
    (h : Plain columns) (hcalls : Undisturbed calls columns) :
    (onAll calls columns).map (fun slot => unnamed slot.value) =
      (columns.map fun slot => unnamed slot.value) ++ (handed calls).map unnamed := by
  induction calls generalizing columns with
  | nil => simp [onAll, handed]
  | cons call rest ih =>
    have hstep := map_on h (hordinary call List.mem_cons_self) hcalls.1
    have hrest := ih (fun call hcall => hordinary call (List.mem_cons_of_mem _ hcall))
      (fun call hcall => hunmarked call (List.mem_cons_of_mem _ hcall))
      (h.on (hunmarked call List.mem_cons_self)) hcalls.2
    rw [hstep, List.append_assoc, ← List.map_append, ← handed_cons] at hrest
    exact hrest

theorem length_onAll (hordinary : ∀ call ∈ calls, call.Ordinary) (columns : List (Slot Column)) :
    (onAll calls columns).length ≤ columns.length + (handed calls).length ∧
      ((onAll calls columns).length = columns.length + (handed calls).length → Undisturbed calls columns) := by
  induction calls generalizing columns with
  | nil => exact ⟨Nat.le_refl _, fun _ => trivial⟩
  | cons call rest ih =>
    obtain ⟨hle, hnone⟩ := length_on (hordinary call List.mem_cons_self) columns
    obtain ⟨hle', hrest⟩ := ih (fun call hcall => hordinary call (List.mem_cons_of_mem _ hcall)) (call.on columns)
    have hgo : onAll (call :: rest) columns = onAll rest (call.on columns) := rfl
    rw [hgo, handed_cons, List.length_append]
    exact ⟨by omega, fun hlength => ⟨hnone (by omega), hrest (by omega)⟩⟩

/-- **What calls leave is what they handed over** exactly if none takes a column away and every column
has its own name in the end. -/
theorem handed_eq_onAll_iff (hordinary : ∀ call ∈ calls, call.Ordinary) (hunmarked : ∀ call ∈ calls, call.Unmarked) :
    handed calls = (onAll calls []).map Slot.value ↔
      Undisturbed calls [] ∧ ((onAll calls []).map Slot.value).map Column.name = (handed calls).map Column.name := by
  constructor
  · intro hsame
    refine ⟨(length_onAll hordinary []).2 ?_, by rw [hsame]⟩
    rw [hsame, List.length_map, List.length_nil, Nat.zero_add]
  · rintro ⟨hundisturbed, hnames⟩
    have hplain : Plain [] := fun slot hslot => absurd hslot List.not_mem_nil
    have hrest := map_onAll hordinary hunmarked hplain hundisturbed
    have hvalues : ((onAll calls []).map Slot.value).map unnamed = (handed calls).map unnamed := by
      rw [List.map_map]
      exact hrest
    -- A column is its name and the rest of it.
    have hinj : Function.Injective fun c : Column => (unnamed c, c.name) := by
      intro c c' hsame
      obtain ⟨hunnamed, hname⟩ := Prod.mk.inj hsame
      have hcolumn := congrArg (fun d : Column => { d with name := c.name }) hunnamed
      rw [hname] at hcolumn
      exact (congrArg (fun name => { c with name }) hname).trans hcolumn
    refine List.map_injective_iff.mpr hinj ?_
    rw [← List.zip_map', ← List.zip_map', hvalues, hnames]

end ColumnCall

namespace Table
open ColumnCall

variable {t : Table} {columns : Entries Column} {calls : List ColumnCall}

theorem slots_commit (hcolumns : t.columns = .owned columns) (clear set : Flags) :
    (t.commit clear set).entries.slots = lasting columns.slots := by
  simp only [commit, hcolumns]
  rfl

/-- Of a column log that is taken over as it is, every column that was handed over lasts. -/
theorem lasting_recorded (hordinary : ∀ call ∈ calls, call.Ordinary) (hunmarked : ∀ call ∈ calls, call.Unmarked) :
    lasting (calls.map fun call => .owned call.entry) = (handed calls).map Slot.owned := by
  induction calls with
  | nil => rfl
  | cons call rest ih =>
    have hrest := ih (fun call hcall => hordinary call (List.mem_cons_of_mem _ hcall))
      fun call hcall => hunmarked call (List.mem_cons_of_mem _ hcall)
    have hordinary := hordinary call List.mem_cons_self
    have hunmarked := hunmarked call List.mem_cons_self
    rw [List.map_cons, handed_cons, List.map_append, ← hrest]
    cases call with
    | add c =>
      have hlive : Entry.isLive (Slot.owned (ColumnCall.add c).entry).value = true :=
        isLive_of_ordinary (hordinary c rfl)
      rw [lasting_live hlive, entry, settleSlot_unmarked (hunmarked c rfl)]
      rfl
    | alter c =>
      have hlive : Entry.isLive (Slot.owned (ColumnCall.alter c).entry).value = true :=
        isLive_of_ordinary (hordinary c rfl)
      rw [lasting_live hlive, entry, settleSlot_alter (hunmarked c rfl)]
      rfl
    | drop name =>
      have hdead : ¬ Entry.isLive (Slot.owned (ColumnCall.drop name).entry).value = true := Bool.false_ne_true
      exact lasting_placeholder hdead _
    | rename old new =>
      have hdead : ¬ Entry.isLive (Slot.owned (ColumnCall.rename old new).entry).value = true := Bool.false_ne_true
      exact lasting_placeholder hdead _

end Table

/-! ### The table that a delta brings in -/

namespace Schema
open ColumnCall Table

variable {s : Schema} {t : Table} {front : List Table} {name : String} {calls : List ColumnCall}

/-- What records calls is a change of the live table of that name, with the calls as its column log. -/
theorem entry_alter (name : String) (calls : List ColumnCall) :
    (SchemaCall.alter name calls).entry.name = some name ∧
      Entry.isLive (SchemaCall.alter name calls).entry = true ∧
      Entry.change? (SchemaCall.alter name calls).entry = some .alter ∧
      ∃ log : Entries Column, (SchemaCall.alter name calls).entry.columns = .owned log ∧
        log.slots = calls.map fun call => .owned call.entry := by
  have hflag : ((Table.plain name).insertFlags .change).flags.isChange = true := by
    show (Flags.pointer.insert .change).isChange = true
    decide
  have hcolumns : ((Table.plain name).insertFlags .change).columns = .owned {} := rfl
  obtain ⟨hflags, hslots⟩ := callAll_recorded hcolumns hflag calls
  obtain ⟨log, hlog⟩ := (edited_callAll _ calls).owned hcolumns
  obtain ⟨columns, offset, foreigns, hshape⟩ := (edited_callAll ((Table.plain name).insertFlags .change) calls).shape
  have hname : (SchemaCall.alter name calls).entry.name = some name := by rw [SchemaCall.entry, hshape]; rfl
  have hold : (SchemaCall.alter name calls).entry.oldName = none := by rw [SchemaCall.entry, hshape]; rfl
  refine ⟨hname, isLive_of_oldName hold, ?_, log, hlog, ?_⟩
  · have hname' : Entry.name (SchemaCall.alter name calls).entry = some name := hname
    have hmark : (Entry.flags (SchemaCall.alter name calls).entry).isChange = true :=
      (congrArg Flags.isChange hflags).trans hflag
    simp only [Entry.change?, hname', hmark, if_true]
  · rw [entries, hlog] at hslots
    exact hslots

/-- No live table of that name is there when the entries of a delta are folded in. -/
theorem absent_prepared (ho : s.tables.Ordered) (habsent : s.find? name = none) :
    ∀ t ∈ s.prepared.tables.values, Entry.isLive t = true → t.name ≠ some name := by
  intro t ht hlive hname
  have hstanding := mem_standing.mpr ⟨t, ht, hlive, hname, rfl⟩
  rw [standing_prepared] at hstanding
  exact not_standing_of_find? ho habsent _ hstanding

theorem lookup_absent (ho : s.tables.Ordered) (habsent : s.find? name = none) :
    (Projection.ofTables s.tables.values).lookup name = none := by
  rw [ofTables_eq_insertAll, Projection.lookup_insertAll_none (not_standing_of_find? ho habsent)]
  rfl

/-- The live table that came last is the one of its name, if no other has it. -/
theorem findLive?_last (ho : s.tables.Ordered) (hvalues : s.tables.values = front ++ [t])
    (hfront : ∀ t' ∈ front, Entry.isLive t' = true → t'.name ≠ some name) (hname : t.name = some name)
    (hlive : Entry.isLive t = true) : s.tables.findLive? name = some front.length ∧ s.find? name = some t := by
  have hmiss : front.findIdx? (fun t => Entry.name t == some name && Entry.isLive t) = none := by
    rw [List.findIdx?_eq_none_iff]
    intro t' ht'
    by_cases hlive' : Entry.isLive t' = true
    · have hne : Entry.name t' ≠ some name := hfront t' ht' hlive'
      rw [beq_false_of_ne hne, Bool.false_and]
    · rw [Bool.not_eq_true] at hlive'
      rw [hlive', Bool.and_false]
  have hname' : Entry.name t = some name := hname
  have hfind : s.tables.findLive? name = some front.length := by
    rw [Entries.findLive?_eq_findIdx? ho, hvalues, List.findIdx?_append, hmiss]
    simp [hname', hlive]
  refine ⟨hfind, ?_⟩
  rw [find?, Entries.live?, hfind, Option.bind_some, ← Entries.getElem?_values, hvalues,
    List.getElem?_append_right (Nat.le_refl _), Nat.sub_self]
  rfl

theorem find?_clearChanges (hvalues : s.tables.values = front ++ [t])
    (hfront : ∀ t' ∈ front, Entry.isLive t' = true → t'.name ≠ some name) (hname : t.name = some name)
    (hlive : Entry.isLive t = true) (clear set : Flags) :
    (s.clearChanges clear set).find? name = some (t.commit clear set) := by
  have hcommitted : (s.clearChanges clear set).tables.values =
      (front.filter Entry.isLive).map (·.commit clear set) ++ [t.commit clear set] := by
    rw [values_clearChanges, hvalues, List.filter_append, List.filter_cons_of_pos hlive, List.map_append]
    rfl
  refine (findLive?_last (s.committed_clearChanges clear set).ordered hcommitted (fun t' ht' _ => ?_) hname hlive).2
  obtain ⟨t₀, ht₀, rfl⟩ := List.mem_map.mp ht'
  obtain ⟨ht₀, hlive₀⟩ := List.mem_filter.mp ht₀
  exact hfront t₀ ht₀ hlive₀

/-- The column log of a change is folded into a table without columns, and a commit leaves what the
calls ask for. -/
theorem slots_commit_merged (hordinary : ∀ call ∈ calls, call.Ordinary)
    (hunmarked : ∀ call ∈ calls, call.Unmarked) {merged : Table}
    (h : (Table.plain name).accumulate (SchemaCall.alter name calls).entry = .ok merged) (clear set : Flags) :
    (merged.commit clear set).entries.slots = onAll calls [] := by
  have hcolumns : (Table.plain name).columns = .owned {} := rfl
  have hlog : ((Table.plain name).insertFlags .change).columns = .owned {} := rfl
  have hchange : ((Table.plain name).insertFlags .change).flags.isChange = true := by
    show (Flags.pointer.insert .change).isChange = true
    decide
  have hreplay := accumulate_recorded hcolumns hlog rfl hchange calls
  obtain rfl := Except.ok.inj (h.symm.trans hreplay)
  generalize hstart : (if ({} : Entries Column).isEmpty then (Table.plain name).insertFlags .change
    else Table.plain name) = start
  have hstart' : start.columns = .owned {} := by
    rw [← hstart]
    split <;> rfl
  have hcarries : Carries calls start (calls.foldl (fun t call => t.applyEntry (.owned call.entry)) start) :=
    carries_foldl fun call hcall t' _ => carries_applyEntry (hordinary call hcall) (hunmarked call hcall)
  obtain ⟨columns, hfill, hcarried⟩ := hcarries {} hstart' (Entries.ordered_of_unsorted rfl)
  rw [slots_commit hfill.columns_eq, hcarried.lasting]
  rfl

theorem change_plain (name : String) : Entry.change? (Table.plain name) = some .add := by
  have hflag : Flags.pointer.isChange = false := by decide
  show (if Flags.pointer.isChange then some Change.alter else some Change.add) = _
  rw [hflag]
  rfl

theorem applyAlter_absent (habsent : ∀ t ∈ s.tables.values, Entry.isLive t = true → t.name ≠ some name)
    (hname : t.name = some name) : s.applyAlter t = (s.adopt t, none) := by
  rcases s.applyAlter_cases hname with ⟨_, hadopt⟩ | ⟨i, existing, hi, hvalue, hlive, _⟩
  · exact hadopt
  · obtain ⟨t', hget, hname', _⟩ := found_live hi
    obtain rfl := Option.some.inj (hvalue.symm.trans hget)
    exact absurd hname' (habsent existing (List.mem_of_getElem? hvalue) hlive)

/-- **A change of a table that is not there** is folded in as a table that comes. -/
theorem accumulate_adopted (ho : s.tables.Ordered) (habsent : s.find? name = none) {delta : Schema}
    (hslots : delta.tables.slots = [.owned (SchemaCall.alter name calls).entry]) :
    ∃ s', s.accumulate delta = (s', none) ∧
      s'.tables.values = s.prepared.tables.values ++ [(SchemaCall.alter name calls).entry.collectForeigns] := by
  obtain ⟨hname, _, hkind, _⟩ := entry_alter name calls
  have hvalues : delta.tables.values = [(SchemaCall.alter name calls).entry] := by rw [Entries.values, hslots]; rfl
  have hcheck : s.checkStatic delta = .ok () := by
    rw [checkStatic, hvalues, List.foldlM_cons, Projection.step_alter_missing _ hkind hname (lookup_absent ho habsent)]
    rfl
  have hfold : s.prepared.applyEntries delta.tables.slots =
      (s.prepared.adopt (SchemaCall.alter name calls).entry, none) := by
    have hentry : s.prepared.applyEntry (.owned (SchemaCall.alter name calls).entry) =
        (s.prepared.adopt (SchemaCall.alter name calls).entry, none) := by
      simp only [applyEntry, Slot.value, hkind]
      exact applyAlter_absent (absent_prepared ho habsent) hname
    rw [hslots, applyEntries, hentry]
    rfl
  rw [accumulate_of_check_ok hcheck, hfold]
  exact ⟨_, rfl, values_adopt _ _⟩

/-- **A change of a table that comes in front of it** is folded into that table. -/
theorem accumulate_merged (ho : s.tables.Ordered) (habsent : s.find? name = none) {delta : Schema}
    (hslots : delta.tables.slots = [.owned (.plain name), .owned (SchemaCall.alter name calls).entry]) :
    ∃ s' merged, s.accumulate delta = (s', none) ∧ s'.tables.values = s.prepared.tables.values ++ [merged] ∧
      (Table.plain name).accumulate (SchemaCall.alter name calls).entry = .ok merged ∧
      merged.name = some name ∧ Entry.isLive merged = true := by
  obtain ⟨hname, _, hkind, _⟩ := entry_alter name calls
  have hvalues : delta.tables.values = [Table.plain name, (SchemaCall.alter name calls).entry] := by
    rw [Entries.values, hslots]
    rfl
  have hcheck : s.checkStatic delta = .ok () := by
    have hlookup := Projection.lookup_insert_self (Projection.ofTables s.tables.values) name
      (Table.plain name).isStatic
    rw [checkStatic, hvalues, List.foldlM_cons, Projection.step_add _ (change_plain name) rfl]
    show (do let _ ← List.foldlM Projection.step _ [(SchemaCall.alter name calls).entry]; pure ()) = _
    rw [List.foldlM_cons, Projection.step_alter _ hkind hname hlookup]
    rfl
  have hadd : s.prepared.applyEntry (.owned (.plain name)) = (s.prepared.adopt (.plain name), none) := by
    simp only [applyEntry, Slot.value, change_plain]
  -- The table that came is the only live one of its name, so it is the one that changes.
  have hadopted : (s.prepared.adopt (.plain name)).tables.values = s.prepared.tables.values ++ [.plain name] :=
    values_adopt _ _
  have hlast := (findLive?_last (Entries.ordered_of_unsorted rfl) hadopted (absent_prepared ho habsent) rfl rfl).1
  have hget : (s.prepared.adopt (.plain name)).tables.get? s.prepared.tables.values.length = some (.plain name) := by
    rw [← Entries.getElem?_values, hadopted, List.getElem?_append_right (Nat.le_refl _), Nat.sub_self]
    rfl
  rcases accumulate_cases (.plain name) (SchemaCall.alter name calls).entry with
    ⟨_, merged, hmerged, hsame⟩ | ⟨hstatic, _⟩
  · have hentry : (s.prepared.adopt (.plain name)).applyEntry (.owned (SchemaCall.alter name calls).entry) =
        (((s.prepared.adopt (.plain name)).takeTable s.prepared.tables.values.length).appendSlot (.owned merged),
          none) := by
      simp only [applyEntry, Slot.value, hkind, applyAlter, hname, Option.bind_some, hlast, hget, hmerged]
    have hfold := accumulate_of_check_ok hcheck
    rw [hslots, applyEntries, hadd] at hfold
    dsimp only at hfold
    rw [applyEntries, hentry] at hfold
    refine ⟨_, merged, hfold, ?_, hmerged, hsame.name, hsame.isLive⟩
    show (((s.prepared.adopt (.plain name)).takeTable _).appendSlot (.owned merged)).tables.values = _
    rw [values_appendSlot, values_takeTable, hadopted, List.eraseIdx_append_of_length_le (Nat.le_refl _), Nat.sub_self]
    simp [Slot.value]
  · exact absurd hstatic Bool.false_ne_true

/-- **A table that is not there.** Its change brings it in with every column that is handed over; where
it is created before, with the columns that the calls leave. These are the same ones exactly if no call
takes a column away and every column has its own name in the end. -/
theorem accumulate_absent (ho : s.tables.Ordered) (habsent : s.find? name = none)
    (hordinary : ∀ call ∈ calls, call.Ordinary) (hunmarked : ∀ call ∈ calls, call.Unmarked)
    (deltaName : String) (version : UInt64) (clear set : Flags) :
    ∃ altered created adopted merged,
      s.accumulate (SchemaCall.runAll { name := deltaName, version } [.alter name calls]) = (altered, none) ∧
      s.accumulate (SchemaCall.runAll { name := deltaName, version } [.create name [], .alter name calls]) =
        (created, none) ∧
      (altered.clearChanges clear set).find? name = some adopted ∧
      (created.clearChanges clear set).find? name = some merged ∧
      adopted.entries.values = handed calls ∧ merged.entries.values = (onAll calls []).map Slot.value ∧
      (adopted.entries.values = merged.entries.values ↔
        Undisturbed calls [] ∧ merged.entries.values.map Column.name = adopted.entries.values.map Column.name) := by
  have halter : (SchemaCall.runAll { name := deltaName, version } [.alter name calls]).tables.slots =
      [.owned (SchemaCall.alter name calls).entry] := rfl
  have hcreate : (SchemaCall.runAll { name := deltaName, version } [.create name [], .alter name calls]).tables.slots =
      [.owned (.plain name), .owned (SchemaCall.alter name calls).entry] := rfl
  obtain ⟨altered, haltered, hvalues⟩ := accumulate_adopted ho habsent halter
  obtain ⟨created, merged, hcreated, hvalues', hmerged, hname', hlive'⟩ := accumulate_merged ho habsent hcreate
  have hfront := absent_prepared ho habsent
  obtain ⟨hname, hlive, _, log, hlog, hslots⟩ := entry_alter name calls
  have hadopted := find?_clearChanges hvalues hfront hname hlive clear set
  have hkept := find?_clearChanges hvalues' hfront hname' hlive' clear set
  have hhanded : ((SchemaCall.alter name calls).entry.collectForeigns.commit clear set).entries.values =
      handed calls := by
    have hcolumns : (SchemaCall.alter name calls).entry.collectForeigns.columns = .owned log := hlog
    rw [Entries.values, slots_commit hcolumns, hslots, lasting_recorded hordinary hunmarked, List.map_map]
    exact List.map_id _
  have hleft : (merged.commit clear set).entries.values = (onAll calls []).map Slot.value := by
    rw [Entries.values, slots_commit_merged hordinary hunmarked hmerged]
  refine ⟨altered, created, _, _, haltered, hcreated, hadopted, hkept, hhanded, hleft, ?_⟩
  rw [hhanded, hleft]
  exact handed_eq_onAll_iff hordinary hunmarked

/-- Tags get two columns, and one of them is dropped again. -/
def retagging : List ColumnCall := [.add (.plain "id" .int), .add (.plain "note" .string), .drop "note"]

/-- A schema without tables. -/
def untouched : Schema := { name := "app", version := 1 }

/-- The dropped column stays if there were no tags before. -/
theorem accumulate_absent_tags :
    ∃ altered created adopted merged,
      untouched.accumulate (SchemaCall.runAll { name := "app", version := 2 } [.alter "tags" retagging]) =
        (altered, none) ∧
      untouched.accumulate
          (SchemaCall.runAll { name := "app", version := 2 } [.create "tags" [], .alter "tags" retagging]) =
        (created, none) ∧
      (altered.clearChanges .empty .empty).find? "tags" = some adopted ∧
      (created.clearChanges .empty .empty).find? "tags" = some merged ∧
      adopted.entries.values = [.plain "id" .int, .plain "note" .string] ∧
      merged.entries.values = [.plain "id" .int] := by
  have ho : untouched.tables.Ordered := Entries.ordered_of_unsorted rfl
  have habsent : untouched.find? "tags" = none := by decide +kernel
  have hordinary : ∀ call ∈ retagging, call.Ordinary := by decide
  have hunmarked : ∀ call ∈ retagging, call.Unmarked := by decide
  obtain ⟨altered, created, adopted, merged, haltered, hcreated, hadopted, hmerged, hhanded, hleft, _⟩ :=
    accumulate_absent ho habsent hordinary hunmarked "app" 2 .empty .empty
  exact ⟨altered, created, adopted, merged, haltered, hcreated, hadopted, hmerged, hhanded, hleft⟩

end Schema
end SchemaShift

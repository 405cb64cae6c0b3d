import SchemaShift.Proofs.SchemaCalls
import SchemaShift.Session

/-! The list of foreign key columns.

A table keeps the names of its live columns with a foreign key in a list
(`Table.foreigns`). Folding a column log in keeps the list by name, one entry after
the other, and adopting and committing a table collect it anew. As long as no two
live columns of a table that changes share a name, either way the list is what
collecting it would give (`Table.InStep`), in every session
(`Session.Run.foreigns_inStep`). -/
namespace SchemaShift

/-! ### Names in column order -/

namespace Column

/-- The name of a live column with a foreign key. -/
def keyName? (c : Column) : Option String := if c.isForeign then c.name else none

/-- A column that is marked as a change stands for itself. -/
def ChangeLive (c : Column) : Prop := c.flags.isChange = true → Entry.isLive c = true

theorem keyName?_of_live {c : Column} (h : Entry.isLive c = true) :
    c.keyName? = if c.hasForeign then c.name else none := by
  rw [keyName?, isForeign, h, Bool.true_and]

theorem keyName?_of_placeholder {c : Column} (h : Entry.isLive c = false) : c.keyName? = none := by
  rw [keyName?, isForeign, h, Bool.false_and]
  rfl

/-- What the kinds of change say about a column. -/
theorem stands_of_change {c : Column} {change : Change} (h : Entry.change? c = some change) :
    match change with
    | .add => Entry.isLive c = true
    | .alter => c.flags.isChange = true
    | .drop | .rename => Entry.isLive c = false := by
  have hname : Entry.name c = c.name := rfl
  have hold : Entry.oldName c = c.oldName := rfl
  have hflags : Entry.flags c = c.flags := rfl
  have hlive : Entry.isLive c = !c.oldName.isSome := rfl
  rw [Entry.change?, hname, hold, hflags] at h
  rw [hlive]
  cases hn : c.name <;> cases ho : c.oldName <;> simp only [hn, ho] at h <;> grind

end Column

namespace Table
open ColumnCall

variable {t : Table} {columns front back : List Column} {name old new : String} {c : Column}

/-- The names of the live columns with a foreign key, in column order. -/
def keyNames (columns : List Column) : List String := columns.filterMap Column.keyName?

/-- The list of keys is what collecting them would give. -/
def InStep (t : Table) : Prop := t.foreigns = t.foreignColumns.filterMap Column.name

theorem inStep_iff : t.InStep ↔ t.foreigns = keyNames t.entries.values := by
  rw [InStep, foreignColumns, List.filterMap_filter]
  rfl

theorem inStep_collectForeigns (t : Table) : t.collectForeigns.InStep := rfl

theorem inStep_commit (t : Table) (clear set : Flags) : (t.commit clear set).InStep := rfl

theorem forget_of_not_mem {names : List String} (h : name ∉ names) : forget name names = names :=
  List.filter_eq_self.mpr fun _ hother => bne_iff_ne.mpr fun heq => h (heq ▸ hother)

theorem renameIn_of_not_mem {names : List String} (h : old ∉ names) (new : String) :
    renameIn old new names = names := by
  refine (List.map_congr_left fun other hother => ?_).trans (List.map_id names)
  have hne : other ≠ old := fun heq => h (heq ▸ hother)
  exact if_neg (by simpa using hne)

/-- A name that a live column has alone is no key of the others. -/
theorem not_mem_keyNames {liveNames : List String}
    (hnames : liveNames = (columns.filter Entry.isLive).filterMap Column.name) (h : name ∉ liveNames) :
    name ∉ keyNames columns := by
  intro hmem
  obtain ⟨c, hc, hkey⟩ := List.mem_filterMap.mp hmem
  rw [Column.keyName?] at hkey
  split at hkey
  · next hforeign =>
    have hlive := (Bool.and_eq_true_iff.mp hforeign).1
    exact h (hnames ▸ List.mem_filterMap.mpr ⟨c, List.mem_filter.mpr ⟨hc, hlive⟩, hkey⟩)
  · exact absurd hkey (by simp)

/-- The column that a name finds among different names, and what stands around it. -/
theorem exists_split (hd : t.entries.Distinct) {i : Nat} (hi : t.entries.findLive? name = some i) :
    ∃ front c back, t.entries.values = front ++ c :: back ∧ front.length = i ∧ c.name = some name ∧
      Entry.isLive c = true ∧ name ∉ keyNames front ∧ name ∉ keyNames back := by
  obtain ⟨c, hget, hname, hlive⟩ := Entries.findLive?_some hi
  rw [← Entries.getElem?_values] at hget
  obtain ⟨hlt, rfl⟩ := List.getElem?_eq_some_iff.mp hget
  have hsplit : t.entries.values = t.entries.values.take i ++
      t.entries.values[i] :: t.entries.values.drop (i + 1) := by
    rw [← List.drop_eq_getElem_cons hlt, List.take_append_drop]
  rw [Entries.Distinct, hsplit, List.filter_append, List.filter_cons_of_pos hlive, List.filterMap_append,
    List.filterMap_cons_some hname, List.nodup_middle, List.nodup_cons, List.mem_append, not_or] at hd
  exact ⟨_, _, _, hsplit, List.length_take_of_le hlt.le, hname, hlive, not_mem_keyNames rfl hd.1.1,
    not_mem_keyNames rfl hd.1.2⟩

theorem keyNames_middle (front : List Column) (c : Column) (back : List Column) :
    keyNames (front ++ c :: back) = keyNames front ++ (c.keyName?.toList ++ keyNames back) := by
  rw [keyNames, List.filterMap_append, List.filterMap_cons]
  cases c.keyName? <;> rfl

theorem keyNames_append (columns : List Column) (c : Column) :
    keyNames (columns ++ [c]) = keyNames columns ++ c.keyName?.toList := by
  rw [keyNames_middle, keyNames, keyNames, List.filterMap_nil, List.append_nil]

/-- A live column carries its own name, or none. -/
theorem toList_keyName? (hname : c.name = some name) (hlive : Entry.isLive c = true) :
    c.keyName?.toList = if c.hasForeign then [name] else [] := by
  rw [Column.keyName?_of_live hlive, hname]
  split <;> rfl

/-! ### One entry of a column log -/

/-- **Taking a column out** takes its name out of the list. -/
theorem InStep.takeNamed (h : t.InStep) (hd : t.entries.Distinct) (name : Option String) :
    (t.takeNamed name).InStep := by
  unfold Table.takeNamed
  split
  · next i hi =>
    obtain ⟨name, _, hi⟩ := Option.bind_eq_some_iff.mp hi
    obtain ⟨front, c, back, hsplit, hlength, hname, hlive, hfront, hback⟩ := exists_split hd hi
    have hget : t.entries.get? i = some c := by
      rw [← Entries.getElem?_values, hsplit, ← hlength]
      simp
    have htaken : (t.entries.steal i 1).2.values = front ++ back := by
      rw [Entries.values_steal, hsplit, ← hlength, List.eraseIdx_append_of_length_le le_rfl, Nat.sub_self,
        List.eraseIdx_cons_zero]
    have hown : forget name c.keyName?.toList = [] := by
      rw [toList_keyName? hname hlive]
      split <;> simp [forget]
    have hforget : forget name t.foreigns = keyNames (front ++ back) := by
      calc forget name t.foreigns
          = forget name (keyNames front ++ (c.keyName?.toList ++ keyNames back)) := by
            rw [inStep_iff.mp h, hsplit, keyNames_middle]
        _ = forget name (keyNames front) ++ (forget name c.keyName?.toList ++ forget name (keyNames back)) := by
            rw [forget, List.filter_append, List.filter_append]
            rfl
        _ = keyNames front ++ keyNames back := by
            rw [forget_of_not_mem hfront, hown, forget_of_not_mem hback, List.nil_append]
        _ = keyNames (front ++ back) := List.filterMap_append.symm
    rw [inStep_iff]
    simp only [takeLive, hget, Option.bind_some, hname]
    show forget name t.foreigns = keyNames (t.entries.steal i 1).2.values
    rw [htaken, hforget]
  · exact h

/-- **Renaming a column** renames it in the list. -/
theorem InStep.renameLive (h : t.InStep) (hd : t.entries.Distinct) (old new : String) :
    (t.renameLive old new).InStep := by
  unfold Table.renameLive
  split
  · next i hi =>
    obtain ⟨front, c, back, hsplit, hlength, hname, hlive, hfront, hback⟩ := exists_split hd hi
    have hmoved : (t.entries.modify i (renamed new)).values = front ++ renamed new c :: back := by
      rw [Entries.values_modify, hsplit, ← hlength, Schema.modify_middle]
    have hown : renameIn old new c.keyName?.toList = (renamed new c).keyName?.toList := by
      have hmovedLive : Entry.isLive (renamed new c) = true := hlive
      rw [toList_keyName? hname hlive, toList_keyName? rfl hmovedLive]
      show _ = if c.hasForeign then [new] else []
      split <;> simp [renameIn]
    rw [inStep_iff]
    show renameIn old new t.foreigns = keyNames (t.entries.modify i (renamed new)).values
    calc renameIn old new t.foreigns
        = renameIn old new (keyNames front ++ (c.keyName?.toList ++ keyNames back)) := by
          rw [inStep_iff.mp h, hsplit, keyNames_middle]
      _ = renameIn old new (keyNames front) ++
            (renameIn old new c.keyName?.toList ++ renameIn old new (keyNames back)) := by
          rw [renameIn, List.map_append, List.map_append]
          rfl
      _ = keyNames front ++ ((renamed new c).keyName?.toList ++ keyNames back) := by
          rw [renameIn_of_not_mem hfront, hown, renameIn_of_not_mem hback]
      _ = keyNames (t.entries.modify i (renamed new)).values := by rw [hmoved, keyNames_middle]
  · exact h

variable {slot : Slot Column} {slots : List (Slot Column)}

/-- The log's own entries carry no key. -/
theorem InStep.append (h : t.InStep) (hslot : Entry.isLive slot.value = false) : (t.appendSlot slot).InStep := by
  rw [inStep_iff] at h ⊢
  show t.foreigns = keyNames (t.entries.insert slot).values
  rw [Entries.values_insert, keyNames_append, Column.keyName?_of_placeholder hslot, h]
  exact (List.append_nil _).symm

/-- **A new column** is listed behind the others. -/
theorem InStep.track (h : t.InStep) (hslot : Entry.isLive slot.value = true) :
    ((t.track slot.value).appendSlot slot).InStep := by
  have hcolumns : (t.track slot.value).entries = t.entries := by
    unfold Table.track
    split
    · split <;> rfl
    · rfl
  have hforeigns : (t.track slot.value).foreigns = t.foreigns ++ slot.value.keyName?.toList := by
    rw [Column.keyName?_of_live hslot, Table.track]
    cases slot.value.name <;> cases slot.value.hasForeign <;> simp
  rw [inStep_iff] at h ⊢
  show (t.track slot.value).foreigns = keyNames ((t.track slot.value).entries.insert slot).values
  rw [hforeigns, hcolumns, Entries.values_insert, keyNames_append, h]

/-- **One entry of a column log** keeps the list in step. -/
theorem InStep.applyEntry (h : t.InStep) (hd : t.entries.Distinct) (hslot : slot.value.ChangeLive) :
    (t.applyEntry slot).InStep := by
  simp only [Table.applyEntry]
  cases hkind : Entry.change? slot.value with
  | none => exact h
  | some change =>
    have hstands := Column.stands_of_change hkind
    cases change with
    | add => exact h.track hstands
    | alter => exact (h.takeNamed hd _).track (hslot hstands)
    | drop => exact (h.takeNamed hd _).append hstands
    | rename =>
      dsimp only
      split
      · exact (h.renameLive hd _ _).append hstands
      · exact h.append hstands

/-! ### A column log -/

/-- What a column log makes of a table, one entry after the other. -/
def stages (t : Table) : List (Slot Column) → List Table
  | [] => [t]
  | slot :: rest => t :: (t.applyEntry slot).stages rest

theorem InStep.foldl (h : t.InStep) (hd : ∀ t' ∈ t.stages slots, t'.entries.Distinct)
    (hslots : ∀ slot ∈ slots, slot.value.ChangeLive) : (slots.foldl Table.applyEntry t).InStep := by
  induction slots generalizing t with
  | nil => exact h
  | cons slot rest ih =>
    have hstep := h.applyEntry (hd t List.mem_cons_self) (hslots slot List.mem_cons_self)
    exact ih hstep (fun t' ht' => hd t' (List.mem_cons_of_mem t ht')) fun slot' hslot' =>
      hslots slot' (List.mem_cons_of_mem slot hslot')

/-- The table that a column log is folded into; one without columns takes the change flag over. -/
def opened (t delta : Table) : Table :=
  if t.entries.isEmpty && delta.flags.isChange then t.insertFlags .change else t

/-- **A column log** keeps the list in step, if live columns have different names throughout. -/
theorem InStep.accumulate (h : t.InStep) {delta merged : Table}
    (hd : ∀ t' ∈ (t.opened delta).stages delta.entries.slots, t'.entries.Distinct)
    (hdelta : ∀ c ∈ delta.entries.values, c.ChangeLive) (hmerged : t.accumulate delta = .ok merged) :
    merged.InStep := by
  obtain ⟨columns, hcolumns, hmerged⟩ := bind_ok hmerged
  rw [← ownedColumns_ok hcolumns] at hmerged
  obtain rfl := Except.ok.inj hmerged
  have hopened : (t.opened delta).InStep := by
    unfold opened
    split <;> exact h
  exact hopened.foldl hd fun slot hslot => hdelta slot.value (List.mem_map_of_mem hslot)

/-! ### Tables that builders make -/

/-- A table that builders make of columns that stand for themselves. -/
inductive Built : Table → Prop
  | plain (name : String) : Built (.plain name)
  | ofType (name typeName : String) (size : Nat) : Built (.ofType name typeName size)
  | static (name : String) {columns : Entries Column} : (∀ c ∈ columns.values, c.Ordinary) →
      Built (.static name columns)
  | dropOf (old : String) : Built (.dropOf old)
  | renameOf (old new : String) : Built (.renameOf old new)
  | insertFlags {t : Table} (flags : Flags) : Built t → Built (t.insertFlags flags)
  | attempt {t : Table} {call : ColumnCall} : Built t → call.Ordinary → Built (t.attempt call)

theorem mem_insert {columns : Entries Column} (h : c ∈ (columns.insert slot).values) :
    c ∈ columns.values ∨ c = slot.value := by
  rwa [Entries.values_insert, List.mem_append, List.mem_singleton] at h

/-- Where the columns come from that a call leaves. -/
theorem mem_attempt {call : ColumnCall} (hcall : call.Ordinary) (h : c ∈ (t.attempt call).entries.values) :
    c ∈ t.entries.values ∨ (∃ c' ∈ t.entries.values, ∃ new, c = renamed new c') ∨ call.column? = some c ∨
      c = call.entry := by
  cases hcolumns : t.columns with
  | shared columns =>
    rw [attempt_shared hcolumns] at h
    exact .inl h
  | owned columns =>
    have hentries : t.entries = columns := by rw [entries, hcolumns]; rfl
    have hvalues : ∀ {columns' : Entries Column}, t.Refilled columns' (t.attempt call) →
        c ∈ columns'.values := by
      intro columns' hfill
      rw [entries, hfill.columns_eq] at h
      exact h
    have hwithout : ∀ {name}, c ∈ (without columns name).values → c ∈ columns.values := by
      intro name hc
      unfold without at hc
      split at hc
      · rw [Entries.values_steal] at hc
        exact List.mem_of_mem_eraseIdx hc
      · exact hc
    rw [hentries]
    by_cases hflag : t.flags.isChange = true
    · rw [attempt_recorded hcolumns hflag, entries, appendSlot, hentries] at h
      rcases mem_insert h with h | rfl
      · exact .inl h
      · exact .inr (.inr (.inr rfl))
    · rw [Bool.not_eq_true] at hflag
      cases call with
      | add c' =>
        rcases mem_insert (hvalues (attempt_add hcolumns c')) with h | rfl
        · exact .inl h
        · exact .inr (.inr (.inl rfl))
      | alter c' =>
        obtain ⟨name, hname⟩ := Option.isSome_iff_exists.mp (hcall c' rfl).1
        rcases mem_insert (hvalues (attempt_alter hcolumns hflag hname)) with h | rfl
        · exact .inl (hwithout h)
        · exact .inr (.inr (.inl rfl))
      | drop name => exact .inl (hwithout (hvalues (attempt_drop hcolumns hflag name)))
      | rename old new =>
        have hc := hvalues (attempt_rename hcolumns hflag old new)
        unfold withRenamed at hc
        split at hc
        · rw [Entries.values_modify] at hc
          rcases Entries.mem_modify hc with hc | ⟨c', hc', rfl⟩
          · exact .inl hc
          · exact .inr (.inl ⟨c', hc', new, rfl⟩)
        · exact .inl hc

/-- **Builders mark no placeholder as a change.** -/
theorem Built.changeLive (h : t.Built) : ∀ c ∈ t.entries.values, c.ChangeLive := by
  have hordinary : ∀ {c : Column}, c.Ordinary → c.ChangeLive := fun hc _ => isLive_of_ordinary hc
  induction h with
  | plain name => exact fun c hc => absurd hc List.not_mem_nil
  | ofType name typeName size => exact fun c hc => absurd hc List.not_mem_nil
  | static name hcolumns => exact fun c hc => hordinary (hcolumns c hc)
  | dropOf old => exact fun c hc => absurd hc List.not_mem_nil
  | renameOf old new => exact fun c hc => absurd hc List.not_mem_nil
  | insertFlags flags _ ih => exact ih
  | @attempt t call _ hcall ih =>
    intro c hc
    rcases mem_attempt hcall hc with hc | ⟨c', hc', new, rfl⟩ | hc | rfl
    · exact ih c hc
    · exact ih c' hc'
    · exact hordinary (hcall c hc)
    · cases call with
      | add c' => exact hordinary (hcall c' rfl)
      | alter c' => exact fun _ => isLive_of_ordinary (hcall c' rfl)
      | drop name => exact fun hflag => absurd (show Flags.empty.isChange = true from hflag) (by decide)
      | rename old new => exact fun hflag => absurd (show Flags.empty.isChange = true from hflag) (by decide)

theorem Built.callAll (h : t.Built) {calls : List ColumnCall} (hcalls : ∀ call ∈ calls, call.Ordinary) :
    (t.callAll calls).Built := by
  induction calls generalizing t with
  | nil => exact h
  | cons call rest ih =>
    exact ih (h.attempt (hcalls call List.mem_cons_self)) fun call' hmem =>
      hcalls call' (List.mem_cons_of_mem call hmem)

end Table

/-- The entry of a call is made by builders. -/
theorem SchemaCall.built_entry {call : SchemaCall} (h : call.Handing Table.Built) : call.entry.Built := by
  cases call with
  | create name calls => exact (Table.Built.plain name).callAll h
  | createTyped name typeName size calls => exact (Table.Built.ofType name typeName size).callAll h
  | insertStatic t => exact h
  | alter name calls => exact ((Table.Built.plain name).insertFlags .change).callAll h
  | changeName change =>
    cases change with
    | drop old => exact .dropOf old
    | rename old new => exact .renameOf old new

namespace Schema

/-- A delta that builders make. -/
inductive Built : Schema → Prop
  | new (name : String) (version : UInt64) : Built { name, version }
  | call {s : Schema} {call : SchemaCall} : Built s → call.Handing Table.Built → Built (call.run s)

variable {s delta : Schema} {t : Table} {slot : Slot Table} {slots : List (Slot Table)}

theorem Built.tables (h : s.Built) : ∀ t ∈ s.tables.values, t.Built := by
  induction h with
  | new name version => exact fun t ht => absurd ht List.not_mem_nil
  | @call s call _ hcall ih =>
    intro t ht
    rw [(s.values_run call).1, List.mem_append, List.mem_singleton] at ht
    rcases ht with ht | rfl
    · exact ih t ht
    · exact SchemaCall.built_entry hcall

theorem Built.runAll (h : s.Built) {calls : List SchemaCall} (hcalls : ∀ call ∈ calls, call.Handing Table.Built) :
    (SchemaCall.runAll s calls).Built := by
  induction calls generalizing s with
  | nil => exact h
  | cons call rest ih =>
    exact ih (h.call (hcalls call List.mem_cons_self)) fun call' hmem =>
      hcalls call' (List.mem_cons_of_mem call hmem)

/-! ### Folding a delta in -/

/-- The lists of keys of all live tables are in step. -/
def KeysListed (s : Schema) : Prop := ∀ t ∈ s.tables.values, Entry.isLive t = true → t.InStep

/-- The live table that an entry of a delta changes. -/
def changing? (s : Schema) (t : Table) : Option Table :=
  if Entry.change? t = some .alter then t.name.bind s.tables.live? else none

/-- Live columns have different names in every table that entries change, from one entry of its
column log to the next. -/
def StaysDistinct (s : Schema) : List (Slot Table) → Prop
  | [] => True
  | slot :: rest =>
    (∀ t ∈ s.changing? slot.value, ∀ t' ∈ (t.opened slot.value).stages slot.value.entries.slots,
        t'.entries.Distinct) ∧
      ((s.applyEntry slot).2 = none → (s.applyEntry slot).1.StaysDistinct rest)

instance decidableStaysDistinct : (s : Schema) → (slots : List (Slot Table)) → Decidable (s.StaysDistinct slots)
  | _, [] => inferInstanceAs (Decidable True)
  | s, slot :: rest =>
    have := decidableStaysDistinct (s.applyEntry slot).1 rest
    inferInstanceAs (Decidable (_ ∧ _))

/-- The delta is folded in with different names throughout, if it is folded in at all. -/
def ReplaysDistinct (s delta : Schema) : Prop :=
  s.checkStatic delta = .ok () → s.prepared.StaysDistinct delta.tables.slots

/-- Where the tables come from that the change of a table leaves. -/
theorem mem_applyAlter {name : String} (hkind : Entry.change? slot.value = some .alter)
    (hname : slot.value.name = some name) (h : t ∈ (s.applyAlter slot.value).1.tables.values) :
    t ∈ s.tables.values ∨ t = slot.value.collectForeigns ∨
      ∃ existing ∈ s.tables.values, Entry.isLive existing = true ∧ s.changing? slot.value = some existing ∧
        existing.accumulate slot.value = .ok t := by
  rcases s.applyAlter_cases hname with ⟨_, hadopt⟩ | ⟨i, existing, hi, hvalue, hlive, hcases⟩
  · rw [hadopt, values_adopt, List.mem_append, List.mem_singleton] at h
    rcases h with h | h
    · exact .inl h
    · exact .inr (.inl h)
  · have hmem := List.mem_of_getElem? hvalue
    have hget : s.tables.get? i = some existing := by rw [← Entries.getElem?_values, hvalue]
    have hchanging : s.changing? slot.value = some existing := by
      rw [changing?, if_pos hkind, hname, Option.bind_some, Entries.live?, hi, Option.bind_some, hget]
    rcases hcases with ⟨merged, hmerged, _, _, hmerge⟩ | ⟨_, hrefuse⟩
    · rw [hmerge, values_appendSlot, values_takeTable, List.mem_append, List.mem_singleton] at h
      rcases h with h | rfl
      · exact .inl (List.mem_of_mem_eraseIdx h)
      · exact .inr (.inr ⟨existing, hmem, hlive, hchanging, hmerged⟩)
    · rw [hrefuse, values_appendSlot, values_takeTable, List.mem_append, List.mem_singleton] at h
      rcases h with h | rfl
      · exact .inl (List.mem_of_mem_eraseIdx h)
      · exact .inl hmem

/-- Where the tables come from that any other entry leaves. -/
theorem Folded.mem {ts : List Table} {fault : Option Fault} (hfolded : Folded s slot ts fault)
    (hkind : Entry.change? slot.value ≠ some .alter) (h : t ∈ ts) :
    t ∈ s.tables.values ∨ (∃ t' ∈ s.tables.values, ∃ new, t = named new t') ∨ t = slot.value.collectForeigns ∨
      Entry.isLive t = false := by
  have hlast : ∀ {old : String} {ts : List Table}, slot.value.oldName = some old → t ∈ ts ++ [slot.value] →
      t ∈ ts ∨ Entry.isLive t = false := by
    intro old ts hold h
    rcases List.mem_append.mp h with h | h
    · exact .inl h
    · exact .inr (List.mem_singleton.mp h ▸ not_isLive_of_oldName hold)
  cases hfolded with
  | skip => exact .inl h
  | add =>
    rcases List.mem_append.mp h with h | h
    · exact .inl h
    · exact .inr (.inr (.inl (List.mem_singleton.mp h)))
  | adopt hc => exact absurd hc hkind
  | merge hc => exact absurd hc hkind
  | refuse hc => exact absurd hc hkind
  | miss _ _ hold =>
    rcases hlast hold h with h | h
    · exact .inl h
    · exact .inr (.inr (.inr h))
  | drop _ hold =>
    rcases hlast hold h with h | h
    · exact .inl (List.mem_of_mem_eraseIdx h)
    · exact .inr (.inr (.inr h))
  | @rename old new i _ hold =>
    rcases hlast hold h with h | h
    · rcases Entries.mem_modify h with h | ⟨t', ht', rfl⟩
      · exact .inl h
      · exact .inr (.inl ⟨t', ht', new, rfl⟩)
    · exact .inr (.inr (.inr h))

/-- **One entry of a delta** keeps the lists in step. -/
theorem KeysListed.applyEntry (h : s.KeysListed)
    (hd : ∀ t ∈ s.changing? slot.value, ∀ t' ∈ (t.opened slot.value).stages slot.value.entries.slots,
      t'.entries.Distinct)
    (hslot : ∀ c ∈ slot.value.entries.values, c.ChangeLive) : (s.applyEntry slot).1.KeysListed := by
  intro t ht hlive
  by_cases hkind : Entry.change? slot.value = some .alter
  · obtain ⟨name, hname⟩ := Option.isSome_iff_exists.mp (names_of_change hkind)
    simp only [Schema.applyEntry, hkind] at ht
    rcases mem_applyAlter hkind hname ht with ht | rfl | ⟨existing, hmem, hexisting, hchanging, hmerged⟩
    · exact h t ht hlive
    · exact slot.value.inStep_collectForeigns
    · exact (h existing hmem hexisting).accumulate (hd existing hchanging) hslot hmerged
  · rcases (folded_applyEntry s slot).mem hkind ht with ht | ⟨t', ht', new, rfl⟩ | rfl | hplace
    · exact h t ht hlive
    · exact h t' ht' hlive
    · exact slot.value.inStep_collectForeigns
    · exact absurd hlive (by simp [hplace])

theorem KeysListed.applyEntries (h : s.KeysListed) (hd : s.StaysDistinct slots)
    (hslots : ∀ slot ∈ slots, ∀ c ∈ slot.value.entries.values, c.ChangeLive) :
    (s.applyEntries slots).1.KeysListed := by
  induction slots generalizing s with
  | nil => exact h
  | cons slot rest ih =>
    obtain ⟨hfirst, hrest⟩ := hd
    have hstep := h.applyEntry hfirst (hslots slot List.mem_cons_self)
    rw [Schema.applyEntries]
    split
    · next s' heq =>
      rw [heq] at hrest hstep
      exact ih hstep (hrest rfl) fun slot' hslot' => hslots slot' (List.mem_cons_of_mem slot hslot')
    · next s' fault heq =>
      rw [heq] at hstep
      exact hstep

theorem KeysListed.prepared (h : s.KeysListed) : s.prepared.KeysListed := by
  unfold Schema.prepared
  split
  · exact h
  · intro t ht _
    rw [collectForeigns, Entries.values_modifyAll] at ht
    obtain ⟨t', _, rfl⟩ := List.mem_map.mp ht
    exact t'.inStep_collectForeigns

/-- **A delta**, whatever comes of it. -/
theorem KeysListed.accumulate (h : s.KeysListed) (hdelta : delta.Built) (hd : s.ReplaysDistinct delta) :
    (s.accumulate delta).1.KeysListed := by
  have hslots : ∀ slot ∈ delta.tables.slots, ∀ c ∈ slot.value.entries.values, c.ChangeLive := fun slot hslot =>
    (hdelta.tables slot.value (List.mem_map_of_mem hslot)).changeLive
  cases hcheck : s.checkStatic delta with
  | error fault =>
    rw [Schema.accumulate, hcheck]
    exact h
  | ok =>
    obtain ⟨version, accumulated, hfold⟩ := accumulate_folded hcheck
    rw [hfold]
    exact h.prepared.applyEntries (hd hcheck) hslots

/-! ### Following the keys, and commits -/

/-- A key with other names is a key. -/
theorem keyName?_rekey (r : Rewrite) (c : Column) : (rekey r c).keyName? = c.keyName? := by
  have hforeign : (rekey r c).isForeign = c.isForeign := by
    show (Entry.isLive c && (c.foreign.map r.apply).isSome) = _
    rw [Option.isSome_map]
    rfl
  rw [Column.keyName?, hforeign]
  rfl

theorem inStep_retarget (h : t.InStep) (r : Rewrite) : (retarget t r).InStep := by
  rcases retarget_cases t r with ⟨hstay, _⟩ | ⟨i, _, _, hmove⟩
  · rw [hstay]
    exact h
  · have hkeys : ∀ columns : List Column, Table.keyNames columns = (columns.map Column.keyName?).filterMap id := by
      intro columns
      rw [List.filterMap_map]
      rfl
    rw [Table.inStep_iff] at h ⊢
    rw [hmove]
    show t.foreigns = Table.keyNames (t.entries.modify i (rekey r)).values
    rw [h, Entries.values_modify, hkeys, hkeys, Entries.map_modify (keyName?_rekey r)]

theorem KeysListed.applyRewrites (h : s.KeysListed) (rs : List Rewrite) : (s.applyRewrites rs).1.KeysListed := by
  induction rs generalizing s with
  | nil => exact h
  | cons r rest ih =>
    have hstep : (s.applyRewrite r).1.KeysListed := by
      intro t ht hlive
      rw [(applyRewrite_spec s r).1] at ht
      rcases Entries.mem_modify ht with ht | ⟨t', ht', rfl⟩
      · exact h t ht hlive
      · have hsame := congrArg Prod.snd (sameButKeys_retarget t' r).entry
        exact inStep_retarget (h t' ht' (hsame.symm.trans hlive)) r
    exact ih hstep

theorem keysListed_clearChanges (s : Schema) (clear set : Flags) : (s.clearChanges clear set).KeysListed := by
  intro t ht _
  rw [values_clearChanges] at ht
  obtain ⟨t', _, rfl⟩ := List.mem_map.mp ht
  exact t'.inStep_commit clear set

end Schema

namespace Session

/-- What a session comes to: deltas that builders make are applied to it, whatever comes of each, and
it commits. -/
inductive Run : Session → Prop
  | start {name : String} {settings : Settings} {s : Session} : start name settings = .ok s → Run s
  | delta {s : Session} (name : String) : Run s → Run (s.delta name).2
  | apply {s : Session} {delta : Schema} : Run s → delta.Built → s.schema.ReplaysDistinct delta →
      Run (s.apply delta).2
  | commit {s : Session} : Run s → Run s.commit

theorem keysListed_apply {s : Session} {delta : Schema} (h : s.schema.KeysListed) (hdelta : delta.Built)
    (hd : s.schema.ReplaysDistinct delta) : (s.apply delta).2.schema.KeysListed := by
  have hfolded := h.accumulate hdelta hd
  unfold apply
  split
  · next schema fault heq =>
    rw [heq] at hfolded
    exact hfolded
  · next schema heq =>
    rw [heq] at hfolded
    exact hfolded.applyRewrites (schema.resolve s.pool s.settings.relation.capacity).1

/-- A session keeps the schema that it is handed, and has a pool of its own. -/
theorem resume_ok {schema : Schema} {versions : VersionCounter} {settings : Settings} {s : Session}
    (h : resume schema versions settings = .ok s) :
    s.schema = schema ∧ s.pool = .ofChunkSize settings.relation.chunkSize := by
  unfold resume at h
  cases hvalid : settings.validate with
  | error fault => simp [hvalid, bind, Except.bind] at h
  | ok =>
    cases hclear : settings.migration.clearMask with
    | error fault => simp [hvalid, hclear, bind, Except.bind] at h
    | ok clearMask =>
      cases hset : settings.migration.setMask with
      | error fault => simp [hvalid, hclear, hset, bind, Except.bind] at h
      | ok setMask =>
        rw [hvalid, hclear, hset] at h
        exact Except.ok.inj h ▸ ⟨rfl, rfl⟩

/-- **The list of foreign keys stays in step.** After every delta and every commit of a session the
list that a live table keeps is the list of the names of its live columns with a foreign key, in
column order. -/
theorem Run.foreigns_inStep {s : Session} (h : s.Run) :
    ∀ t ∈ s.schema.tables.values, Entry.isLive t = true →
      t.foreigns = t.foreignColumns.filterMap Column.name := by
  have hlisted : s.schema.KeysListed := by
    induction h with
    | start hstart =>
      rw [(resume_ok hstart).1]
      exact fun t ht _ => absurd ht List.not_mem_nil
    | delta name _ ih => exact ih
    | apply _ hdelta hd ih => exact keysListed_apply ih hdelta hd
    | @commit s _ _ => exact s.schema.keysListed_clearChanges s.clearMask s.setMask
  exact hlisted

/-- A session on an empty schema. -/
def blank : Session where
  settings := {}
  schema := { name := "app", version := 0 }
  versions := ⟨1⟩
  pool := .ofChunkSize 64
  clearMask := .empty
  setMask := .empty

/-- Users, and posts with an author, an editor and a text. -/
def posting : List SchemaCall :=
  [.create "users" [.add (.plain "id" .int)],
    .create "posts" [.add ((Column.plain "author" .int).reference "users" "id"),
      .add ((Column.plain "editor" .int).reference "users" "id"), .add (.plain "text" .string)]]

/-- Users get another name. In posts the editor gets another name and the author another body, the
text goes and a topic comes. -/
def editing : List SchemaCall :=
  [.changeName (.rename "users" "accounts"),
    .alter "posts" [.rename "editor" "reviewer", .alter ((Column.plain "author" .int64).reference "accounts" "id"),
      .drop "text", .add ((Column.plain "topic" .int).reference "topics" "id")]]

/-- The session after both, with a commit between them. -/
def edited : Session :=
  let posted := (blank.apply (SchemaCall.runAll { name := "app", version := 1 } posting)).2.commit
  (posted.apply (SchemaCall.runAll { name := "app", version := 2 } editing)).2

/-- The author stands behind the reviewer now, in the columns and in the list. -/
theorem Run.foreigns_inStep_posts : edited.Run ∧
    (∀ t ∈ edited.schema.tables.values, Entry.isLive t = true →
      t.foreigns = t.foreignColumns.filterMap Column.name) ∧
    (edited.schema.tables.values.filter Entry.isLive).map (fun t => (t.name, t.foreigns)) =
      [(some "accounts", []), (some "posts", ["reviewer", "author", "topic"])] := by
  have hcalls : (∀ call ∈ posting, call.Handing Table.Built) ∧ ∀ call ∈ editing, call.Handing Table.Built := by
    simp only [posting, editing, SchemaCall.Handing, List.forall_mem_cons, List.not_mem_nil, IsEmpty.forall_iff,
      implies_true, and_true, true_and]
    decide
  have hstart : Session.start "app" {} = .ok blank := rfl
  have hposted := (Run.start hstart).apply ((Schema.Built.new "app" 1).runAll hcalls.1) fun _ => by decide +kernel
  have hedited := hposted.commit.apply ((Schema.Built.new "app" 2).runAll hcalls.2) fun _ => by decide +kernel
  exact ⟨hedited, hedited.foreigns_inStep, by decide +kernel⟩

end Session
end SchemaShift

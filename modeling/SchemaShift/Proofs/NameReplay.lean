import SchemaShift.Schema.Accumulate
import SchemaShift.Proofs.Lookup
import Mathlib.Data.List.Induction
import Mathlib.Data.List.Perm.Basic

/-! The replay of names.

`Schema.checkStatic` replays a delta on the live names alone, each with whether
its table is static. `standing` reads that off the tables themselves. `Folded`
says what one entry of a delta can do to the tables (`folded_applyEntry`); if it
brings no name in that stands already, the replay tells what stands afterwards
(`Folded.tracks`). -/
namespace SchemaShift
namespace Schema

/-! ### The projection as a map -/

namespace Projection

variable (p : Projection) (name other : String) (b : Bool)

@[simp] theorem lookup_without_self : (p.without name).lookup name = none := by
  rw [List.lookup_eq_none_iff]
  intro entry hentry
  simpa [bne_comm] using (List.mem_filter.mp hentry).2

@[simp] theorem lookup_without_ne (h : other ≠ name) :
    (p.without name).lookup other = p.lookup other := by
  induction p with
  | nil => rfl
  | cons entry rest ih =>
    obtain ⟨key, value⟩ := entry
    rw [without] at ih ⊢
    by_cases hkey : key = name
    · subst hkey
      rw [List.filter_cons_of_neg (by simp), ih, List.lookup_cons, beq_false_of_ne h]
    · rw [List.filter_cons_of_pos (by simpa using hkey), List.lookup_cons, List.lookup_cons, ih]

@[simp] theorem lookup_insert_self : (p.insert name b).lookup name = some b := by
  simp [insert]

@[simp] theorem lookup_insert_ne (h : other ≠ name) :
    (p.insert name b).lookup other = p.lookup other := by
  rw [insert, List.lookup_cons, beq_false_of_ne h]
  exact lookup_without_ne p name other h

/-- Inserts entries one after the other. -/
def insertAll (p : Projection) (entries : List (String × Bool)) : Projection :=
  entries.foldl (fun p entry => Projection.insert p entry.1 entry.2) p

variable {p : Projection} {name : String} {b : Bool} {entries : List (String × Bool)}

theorem insertAll_concat (p : Projection) (entries : List (String × Bool)) (entry : String × Bool) :
    p.insertAll (entries ++ [entry]) = (p.insertAll entries).insert entry.1 entry.2 := by
  simp [insertAll]

theorem lookup_insertAll_isSome (h : ∃ b, (name, b) ∈ entries) :
    ((p.insertAll entries).lookup name).isSome := by
  induction entries using List.reverseRecOn with
  | nil => simp at h
  | append_singleton rest entry ih =>
    rw [insertAll_concat]
    by_cases hname : name = entry.1
    · subst hname
      simp
    · rw [lookup_insert_ne _ _ _ _ hname]
      obtain ⟨b, hb⟩ := h
      refine ih ⟨b, (List.mem_append.mp hb).resolve_right fun hlast => hname ?_⟩
      rw [← List.mem_singleton.mp hlast]

theorem lookup_insertAll_of_nodup (hnodup : (entries.map Prod.fst).Nodup) (h : (name, b) ∈ entries) :
    (p.insertAll entries).lookup name = some b := by
  induction entries using List.reverseRecOn with
  | nil => simp at h
  | append_singleton rest entry ih =>
    rw [insertAll_concat]
    rw [List.map_append, List.map_singleton, List.nodup_append] at hnodup
    rcases List.mem_append.mp h with hrest | hlast
    · have hne : name ≠ entry.1 :=
        hnodup.2.2 name (List.mem_map_of_mem hrest) entry.1 (List.mem_singleton_self _)
      rw [lookup_insert_ne _ _ _ _ hne]
      exact ih hnodup.1 hrest
    · obtain rfl := List.mem_singleton.mp hlast
      simp

theorem lookup_insertAll_none (h : ∀ b, (name, b) ∉ entries) :
    (p.insertAll entries).lookup name = p.lookup name := by
  induction entries using List.reverseRecOn with
  | nil => rfl
  | append_singleton rest entry ih =>
    have hne : name ≠ entry.1 := fun hname => h entry.2 (by simp [hname])
    rw [insertAll_concat, lookup_insert_ne _ _ _ _ hne]
    exact ih fun b hb => h b (List.mem_append_left _ hb)

end Projection

/-! ### The names that stand -/

theorem isLive_congr {t t' : Table} (h : t'.oldName = t.oldName) : Entry.isLive t' = Entry.isLive t :=
  congrArg (fun old : Option String => !old.isSome) h

theorem isLive_of_oldName {t : Table} (h : t.oldName = none) : Entry.isLive t = true :=
  congrArg (fun old : Option String => !old.isSome) h

theorem not_isLive_of_oldName {t : Table} {old : String} (h : t.oldName = some old) :
    Entry.isLive t = false :=
  congrArg (fun old : Option String => !old.isSome) h

/-- The table that a look-up for a live one finds. -/
theorem found_live {s : Schema} {name : String} {i : Nat} (h : s.tables.findLive? name = some i) :
    ∃ t, s.tables.values[i]? = some t ∧ t.name = some name ∧ Entry.isLive t = true := by
  obtain ⟨t, hget, hname, hlive⟩ := Entries.findLive?_some h
  exact ⟨t, by rw [Entries.getElem?_values, hget], hname, hlive⟩

/-- The live names in table order, each with whether its table is static. -/
def standing (tables : List Table) : List (String × Bool) :=
  (tables.filter Entry.isLive).filterMap fun t => t.name.map (·, t.isStatic)

theorem standing_append (ts ts' : List Table) : standing (ts ++ ts') = standing ts ++ standing ts' := by
  simp [standing]

theorem mem_standing {tables : List Table} {name : String} {b : Bool} :
    (name, b) ∈ standing tables ↔
      ∃ t ∈ tables, Entry.isLive t = true ∧ t.name = some name ∧ t.isStatic = b := by
  simp [standing, and_assoc]

/-- The projection of the tables holds the names that stand; the last one of a name counts. -/
theorem ofTables_eq_insertAll (tables : List Table) :
    Projection.ofTables tables = Projection.insertAll [] (standing tables) := by
  rw [Projection.ofTables, Projection.insertAll, standing, List.foldl_filterMap]
  congr 1
  funext p t
  cases t.name <;> rfl

theorem lookup_ofTables_isSome {tables : List Table} {name : String} {b : Bool}
    (h : (name, b) ∈ standing tables) : ((Projection.ofTables tables).lookup name).isSome := by
  rw [ofTables_eq_insertAll]
  exact Projection.lookup_insertAll_isSome ⟨b, h⟩

/-- The last table counts. -/
theorem lookup_ofTables_concat {tables : List Table} {t : Table} {name : String}
    (hlive : Entry.isLive t = true) (hname : t.name = some name) :
    (Projection.ofTables (tables ++ [t])).lookup name = some t.isStatic := by
  have hlast : standing [t] = [(name, t.isStatic)] := by simp [standing, hlive, hname]
  rw [ofTables_eq_insertAll, standing_append, hlast, Projection.insertAll_concat]
  simp

/-! ### One entry of the replay -/

namespace Projection

theorem step_add (p : Projection) {t : Table} {name : String} (h : Entry.change? t = some .add)
    (hname : t.name = some name) : p.step t = .ok (p.insert name t.isStatic) := by
  simp [step, h, hname]

theorem step_drop (p : Projection) {t : Table} {old : String} (h : Entry.change? t = some .drop)
    (hold : t.oldName = some old) : p.step t = .ok (p.without old) := by
  simp [step, h, hold]

theorem step_rename (p : Projection) {t : Table} {old new : String} {b : Bool}
    (h : Entry.change? t = some .rename) (hold : t.oldName = some old) (hnew : t.name = some new)
    (hb : p.lookup old = some b) : p.step t = .ok ((p.without old).insert new b) := by
  simp [step, h, hold, hnew, hb]

theorem step_rename_missing (p : Projection) {t : Table} {old new : String}
    (h : Entry.change? t = some .rename) (hold : t.oldName = some old) (hnew : t.name = some new)
    (hb : p.lookup old = none) : p.step t = .ok p := by
  simp [step, h, hold, hnew, hb]

theorem step_skip (p : Projection) {t : Table} (h : Entry.change? t = none) : p.step t = .ok p := by
  simp [step, h]

theorem step_alter (p : Projection) {t : Table} {name : String} {b : Bool}
    (h : Entry.change? t = some .alter) (hname : t.name = some name) (hb : p.lookup name = some b) :
    p.step t = if b then .error (.staticData name) else .ok p := by
  cases b <;> simp [step, h, hname, hb]

theorem step_alter_missing (p : Projection) {t : Table} {name : String}
    (h : Entry.change? t = some .alter) (hname : t.name = some name) (hb : p.lookup name = none) :
    p.step t = .ok (p.insert name t.isStatic) := by
  simp [step, h, hname, hb]

/-- The replay goes on after an entry that it lets through. -/
theorem foldlM_cons_ok {p p' : Projection} {t : Table} {rest : List Table}
    (h : (t :: rest).foldlM step p = .ok p') :
    ∃ p₁, p.step t = .ok p₁ ∧ rest.foldlM step p₁ = .ok p' := by
  rw [List.foldlM_cons] at h
  cases hstep : p.step t with
  | error fault =>
    rw [hstep] at h
    exact absurd h (by simp [bind, Except.bind])
  | ok p₁ =>
    rw [hstep] at h
    exact ⟨p₁, rfl, h⟩

end Projection

/-! ### What a column log leaves alone -/

/-- The same entry, as far as the replay of names can tell. -/
structure SameEntry (t t' : Table) : Prop where
  name : t'.name = t.name
  oldName : t'.oldName = t.oldName
  isStatic : t'.isStatic = t.isStatic

theorem SameEntry.isLive {t t' : Table} (h : SameEntry t t') : Entry.isLive t' = Entry.isLive t :=
  isLive_congr h.oldName

theorem SameEntry.trans {t t' t'' : Table} (h : SameEntry t t') (h' : SameEntry t' t'') :
    SameEntry t t'' :=
  ⟨h'.name.trans h.name, h'.oldName.trans h.oldName, h'.isStatic.trans h.isStatic⟩

theorem sameEntry_appendSlot {t : Table} (h : t.isStatic = false) (slot : Slot Column) :
    SameEntry t (t.appendSlot slot) := ⟨rfl, rfl, h.symm⟩

theorem sameEntry_track (t : Table) (c : Column) : SameEntry t (t.track c) := by
  unfold Table.track
  split
  · split <;> exact ⟨rfl, rfl, rfl⟩
  · exact ⟨rfl, rfl, rfl⟩

theorem sameEntry_takeNamed {t : Table} (h : t.isStatic = false) (name : Option String) :
    SameEntry t (t.takeNamed name) := by
  simp only [Table.takeNamed, Table.takeLive]
  split
  · split <;> exact ⟨rfl, rfl, h.symm⟩
  · exact ⟨rfl, rfl, rfl⟩

theorem sameEntry_renameLive {t : Table} (h : t.isStatic = false) (old new : String) :
    SameEntry t (t.renameLive old new) := by
  unfold Table.renameLive
  split
  · exact ⟨rfl, rfl, h.symm⟩
  · exact ⟨rfl, rfl, rfl⟩

theorem sameEntry_applyEntry {t : Table} (h : t.isStatic = false) (slot : Slot Column) :
    SameEntry t (t.applyEntry slot) := by
  simp only [Table.applyEntry]
  cases Entry.change? slot.value with
  | none => exact ⟨rfl, rfl, rfl⟩
  | some change =>
    cases change with
    | add =>
      have htrack := sameEntry_track t slot.value
      exact htrack.trans (sameEntry_appendSlot (htrack.isStatic.trans h) slot)
    | alter =>
      have htake := sameEntry_takeNamed h slot.value.name
      have htrack := htake.trans (sameEntry_track _ slot.value)
      exact htrack.trans (sameEntry_appendSlot (htrack.isStatic.trans h) slot)
    | drop =>
      have htake := sameEntry_takeNamed h slot.value.oldName
      exact htake.trans (sameEntry_appendSlot (htake.isStatic.trans h) slot)
    | rename =>
      dsimp only
      split
      · next old new _ _ =>
        have hrename := sameEntry_renameLive h old new
        exact hrename.trans (sameEntry_appendSlot (hrename.isStatic.trans h) slot)
      · exact sameEntry_appendSlot h slot

theorem sameEntry_foldl {t : Table} (h : t.isStatic = false) (slots : List (Slot Column)) :
    SameEntry t (slots.foldl Table.applyEntry t) := by
  induction slots generalizing t with
  | nil => exact ⟨rfl, rfl, rfl⟩
  | cons slot rest ih =>
    have hstep := sameEntry_applyEntry h slot
    exact hstep.trans (ih (hstep.isStatic.trans h))

/-- A table takes a column log in unless it is static, and stays the same entry. -/
theorem accumulate_cases (t delta : Table) :
    (t.isStatic = false ∧ ∃ merged, t.accumulate delta = .ok merged ∧ SameEntry t merged) ∨
      (t.isStatic = true ∧ t.accumulate delta = .error (.staticData (Entry.displayName t))) := by
  cases hcolumns : t.columns with
  | shared columns =>
    refine .inr ⟨by simp [Table.isStatic, hcolumns, Slot.isOwned], ?_⟩
    rw [Table.accumulate, Table.ownedColumns, hcolumns]
    rfl
  | owned columns =>
    have howned : t.isStatic = false := by simp [Table.isStatic, hcolumns, Slot.isOwned]
    refine .inl ⟨howned, ?_⟩
    rw [Table.accumulate, Table.ownedColumns, hcolumns]
    refine ⟨_, rfl, ?_⟩
    have hflag : SameEntry t (t.insertFlags .change) := ⟨rfl, rfl, rfl⟩
    split
    · exact hflag.trans (sameEntry_foldl (hflag.isStatic.trans howned) _)
    · exact sameEntry_foldl howned _

/-! ### What an entry of a delta does to the tables -/

theorem values_takeTable (s : Schema) (i : Nat) :
    (s.takeTable i).tables.values = s.tables.values.eraseIdx i := s.tables.values_steal i

@[simp] theorem values_appendSlot (s : Schema) (slot : Slot Table) :
    (s.appendSlot slot).tables.values = s.tables.values ++ [slot.value] :=
  Entries.values_insert _ _

@[simp] theorem tables_registerType (s : Schema) (t : Table) : (s.registerType t).tables = s.tables := by
  unfold registerType
  split
  · split <;> rfl
  · rfl

@[simp] theorem values_adopt (s : Schema) (t : Table) :
    (s.adopt t).tables.values = s.tables.values ++ [t.collectForeigns] := by
  simp [adopt, Slot.value]

/-- The table with another name. -/
def named (new : String) (t : Table) : Table := { t with name := some new }

/-- Folding an entry of a delta into a schema leaves these tables, or stops. -/
inductive Folded (s : Schema) (slot : Slot Table) : List Table → Option Fault → Prop where
  | skip : Entry.change? slot.value = none → Folded s slot s.tables.values none
  | add : Entry.change? slot.value = some .add →
      Folded s slot (s.tables.values ++ [slot.value.collectForeigns]) none
  /-- There is no table to alter. -/
  | adopt {name} : Entry.change? slot.value = some .alter → slot.value.name = some name →
      s.tables.findLive? name = none →
      Folded s slot (s.tables.values ++ [slot.value.collectForeigns]) none
  | merge {name i existing merged} : Entry.change? slot.value = some .alter →
      slot.value.name = some name → s.tables.findLive? name = some i →
      s.tables.values[i]? = some existing → existing.isStatic = false → SameEntry existing merged →
      Folded s slot (s.tables.values.eraseIdx i ++ [merged]) none
  /-- The table to alter is static. -/
  | refuse {name i existing} : Entry.change? slot.value = some .alter →
      slot.value.name = some name → s.tables.findLive? name = some i →
      s.tables.values[i]? = some existing → existing.isStatic = true →
      Folded s slot (s.tables.values.eraseIdx i ++ [existing])
        (some (.staticData (Entry.displayName existing)))
  /-- There is no table to drop or to rename. -/
  | miss {change old} : Entry.change? slot.value = some change → change = .drop ∨ change = .rename →
      slot.value.oldName = some old → s.tables.findLive? old = none →
      Folded s slot (s.tables.values ++ [slot.value]) none
  | drop {old i} : Entry.change? slot.value = some .drop → slot.value.oldName = some old →
      s.tables.findLive? old = some i →
      Folded s slot (s.tables.values.eraseIdx i ++ [slot.value]) none
  | rename {old new i} : Entry.change? slot.value = some .rename → slot.value.oldName = some old →
      slot.value.name = some new → s.tables.findLive? old = some i →
      Folded s slot (s.tables.values.modify i (named new) ++ [slot.value]) none

/-- What the kinds of change say about the names of an entry. -/
theorem names_of_change {t : Table} {change : Change} (h : Entry.change? t = some change) :
    match change with
    | .add => t.name.isSome = true ∧ t.oldName = none
    | .alter => t.name.isSome = true
    | .drop => t.name = none ∧ t.oldName.isSome = true
    | .rename => t.name.isSome = true ∧ t.oldName.isSome = true := by
  have hname : Entry.name t = t.name := rfl
  have hold : Entry.oldName t = t.oldName := rfl
  rw [Entry.change?, hname, hold] at h
  cases hn : t.name <;> cases ho : t.oldName <;> simp only [hn, ho] at h <;> grind

/-- What the change of a table can do. -/
theorem applyAlter_cases (s : Schema) {t : Table} {name : String} (hname : t.name = some name) :
    (s.tables.findLive? name = none ∧ s.applyAlter t = (s.adopt t, none)) ∨
      ∃ i existing, s.tables.findLive? name = some i ∧ s.tables.values[i]? = some existing ∧
        Entry.isLive existing = true ∧
        ((∃ merged, existing.accumulate t = .ok merged ∧ existing.isStatic = false ∧ SameEntry existing merged ∧
            s.applyAlter t = ((s.takeTable i).appendSlot (.owned merged), none)) ∨
          (existing.isStatic = true ∧ s.applyAlter t = ((s.takeTable i).appendSlot (.owned existing),
            some (.staticData (Entry.displayName existing))))) := by
  cases hi : s.tables.findLive? name with
  | none =>
    refine .inl ⟨rfl, ?_⟩
    simp only [applyAlter, hname, Option.bind_some, hi]
  | some i =>
    obtain ⟨existing, hvalue, _, hlive⟩ := found_live hi
    have hget : s.tables.get? i = some existing := by rw [← Entries.getElem?_values, hvalue]
    refine .inr ⟨i, existing, rfl, hvalue, hlive, ?_⟩
    rcases accumulate_cases existing t with ⟨hstatic, merged, hmerged, hsame⟩ | ⟨hstatic, herror⟩
    · refine .inl ⟨merged, hmerged, hstatic, hsame, ?_⟩
      simp only [applyAlter, hname, Option.bind_some, hi, hget, hmerged]
    · refine .inr ⟨hstatic, ?_⟩
      simp only [applyAlter, hname, Option.bind_some, hi, hget, herror]

theorem folded_applyAlter {s : Schema} {slot : Slot Table} {name : String}
    (hc : Entry.change? slot.value = some .alter) (hname : slot.value.name = some name) :
    Folded s slot (s.applyAlter slot.value).1.tables.values (s.applyAlter slot.value).2 := by
  rcases s.applyAlter_cases hname with ⟨hi, hadopt⟩ | ⟨i, existing, hi, hvalue, _, hexisting⟩
  · rw [hadopt, values_adopt]
    exact .adopt hc hname hi
  · rcases hexisting with ⟨merged, _, hstatic, hsame, hmerge⟩ | ⟨hstatic, hrefuse⟩
    · rw [hmerge, values_appendSlot, values_takeTable]
      exact .merge hc hname hi hvalue hstatic hsame
    · rw [hrefuse, values_appendSlot, values_takeTable]
      exact .refuse hc hname hi hvalue hstatic

/-- **What folding one entry in can do.** -/
theorem folded_applyEntry (s : Schema) (slot : Slot Table) :
    Folded s slot (s.applyEntry slot).1.tables.values (s.applyEntry slot).2 := by
  cases hc : Entry.change? slot.value with
  | none =>
    simp only [applyEntry, hc]
    exact .skip hc
  | some change =>
    have hnames := names_of_change hc
    cases change with
    | add =>
      simp only [applyEntry, hc, values_adopt]
      exact .add hc
    | alter =>
      obtain ⟨name, hname⟩ := Option.isSome_iff_exists.mp hnames
      simp only [applyEntry, hc]
      exact folded_applyAlter hc hname
    | drop =>
      obtain ⟨old, hold⟩ := Option.isSome_iff_exists.mp hnames.2
      cases hi : s.tables.findLive? old with
      | none =>
        simp only [applyEntry, hc, applyDrop, hold, Option.bind_some, hi, values_appendSlot]
        exact .miss hc (.inl rfl) hold hi
      | some i =>
        simp only [applyEntry, hc, applyDrop, hold, Option.bind_some, hi, values_appendSlot,
          values_takeTable]
        exact .drop hc hold hi
    | rename =>
      obtain ⟨new, hnew⟩ := Option.isSome_iff_exists.mp hnames.1
      obtain ⟨old, hold⟩ := Option.isSome_iff_exists.mp hnames.2
      cases hi : s.tables.findLive? old with
      | none =>
        simp only [applyEntry, hc, applyRename, hold, hnew, renameLive, hi, values_appendSlot]
        exact .miss hc (.inr rfl) hold hi
      | some i =>
        simp only [applyEntry, hc, applyRename, hold, hnew, renameLive, hi, values_appendSlot,
          Entries.values_modify]
        exact .rename hc hold hnew hi

theorem ordered_applyEntry {s : Schema} (h : s.tables.Ordered) (slot : Slot Table) :
    (s.applyEntry slot).1.tables.Ordered := by
  have happend : ∀ (s : Schema) (slot : Slot Table), (s.appendSlot slot).tables.Ordered :=
    fun _ _ => Entries.ordered_of_unsorted rfl
  cases hc : Entry.change? slot.value with
  | none => simpa only [applyEntry, hc] using h
  | some change =>
    cases change <;> simp only [applyEntry, hc]
    · exact happend _ _
    · simp only [applyAlter]
      split
      · exact happend _ _
      · split
        · exact happend _ _
        · split <;> exact happend _ _
    · simp only [applyDrop]
      split <;> exact happend _ _
    · simp only [applyRename]
      split <;> exact happend _ _

/-! ### The replay of names tells what stands -/

/-- The projection holds these names and no others, and none of them twice. -/
structure Tracks (p : Projection) (entries : List (String × Bool)) : Prop where
  nodup : (entries.map Prod.fst).Nodup
  lookup : ∀ name b, p.lookup name = some b ↔ (name, b) ∈ entries

variable {p : Projection} {entries entries' : List (String × Bool)}

theorem Tracks.perm (h : Tracks p entries) (hperm : entries'.Perm entries) : Tracks p entries' where
  nodup := (hperm.map Prod.fst).nodup_iff.mpr h.nodup
  lookup name b := (h.lookup name b).trans hperm.mem_iff.symm

theorem Tracks.lookup_none (h : Tracks p entries) {name : String} (hname : ∀ b, (name, b) ∉ entries) :
    p.lookup name = none :=
  Option.eq_none_iff_forall_ne_some.mpr fun b hb => hname b ((h.lookup name b).mp hb)

theorem Tracks.insert (h : Tracks p entries) {name : String} (hname : ∀ b, (name, b) ∉ entries)
    (b : Bool) : Tracks (p.insert name b) ((name, b) :: entries) where
  nodup := by
    refine List.nodup_cons.mpr ⟨fun hmem => ?_, h.nodup⟩
    obtain ⟨⟨other, b'⟩, hother, rfl⟩ := List.mem_map.mp hmem
    exact hname b' hother
  lookup other b' := by
    by_cases hother : other = name
    · subst hother
      simp [hname, eq_comm]
    · rw [Projection.lookup_insert_ne _ _ _ _ hother, h.lookup]
      simp [hother]

theorem Tracks.without {old : String} {b : Bool} (h : Tracks p ((old, b) :: entries)) :
    Tracks (p.without old) entries := by
  obtain ⟨hold, hnodup⟩ := List.nodup_cons.mp h.nodup
  refine ⟨hnodup, fun name b' => ?_⟩
  by_cases hname : name = old
  · subst hname
    rw [Projection.lookup_without_self]
    exact iff_of_false (by simp) fun hmem => hold (List.mem_map.mpr ⟨_, hmem, rfl⟩)
  · rw [Projection.lookup_without_ne _ _ _ hname, h.lookup]
    simp [hname]

theorem Tracks.without_missing {old : String} (h : Tracks p entries)
    (hold : ∀ b, (old, b) ∉ entries) : Tracks (p.without old) entries := by
  refine ⟨h.nodup, fun name b => ?_⟩
  by_cases hname : name = old
  · subst hname
    rw [Projection.lookup_without_self]
    exact iff_of_false (by simp) (hold b)
  · rw [Projection.lookup_without_ne _ _ _ hname, h.lookup]

theorem tracks_ofTables {tables : List Table} (h : ((standing tables).map Prod.fst).Nodup) :
    Tracks (Projection.ofTables tables) (standing tables) := by
  refine ⟨h, fun name b => ?_⟩
  rw [ofTables_eq_insertAll]
  constructor
  · intro hb
    by_contra hmem
    by_cases hother : ∃ b', (name, b') ∈ standing tables
    · obtain ⟨b', hb'⟩ := hother
      rw [Projection.lookup_insertAll_of_nodup h hb'] at hb
      exact hmem (Option.some.inj hb ▸ hb')
    · rw [Projection.lookup_insertAll_none (not_exists.mp hother)] at hb
      simp at hb
  · exact Projection.lookup_insertAll_of_nodup h

theorem standing_singleton {t : Table} {name : String} (hlive : Entry.isLive t = true)
    (hname : t.name = some name) : standing [t] = [(name, t.isStatic)] := by
  simp [standing, hlive, hname]

theorem standing_placeholder {t : Table} {old : String} (h : t.oldName = some old) :
    standing [t] = [] := by
  simp [standing, not_isLive_of_oldName h]

/-- A live table is live beside the others. -/
theorem live_eraseIdx {ts : List Table} {i : Nat} {t : Table} (h : ts[i]? = some t)
    (hlive : Entry.isLive t = true) :
    (ts.filter Entry.isLive).Perm (t :: (ts.eraseIdx i).filter Entry.isLive) := by
  obtain ⟨hi, rfl⟩ := List.getElem?_eq_some_iff.mp h
  refine ((List.getElem_cons_eraseIdx_perm hi).symm.filter Entry.isLive).trans (.of_eq ?_)
  rw [List.filter_cons_of_pos hlive]

theorem live_modify {ts : List Table} {i : Nat} {t : Table} (new : String) (h : ts[i]? = some t)
    (hlive : Entry.isLive t = true) :
    ((ts.modify i (named new)).filter Entry.isLive).Perm (named new t :: (ts.eraseIdx i).filter Entry.isLive) := by
  obtain ⟨hi, rfl⟩ := List.getElem?_eq_some_iff.mp h
  have hset : ts.modify i (named new) = ts.set i (named new ts[i]) := by
    rw [List.modify_eq_set_getElem?, h]
    rfl
  have hnamed : Entry.isLive (named new ts[i]) = true := hlive
  rw [hset]
  refine ((List.set_perm_cons_eraseIdx hi (named new ts[i])).filter Entry.isLive).trans (.of_eq ?_)
  rw [List.filter_cons_of_pos hnamed]

/-- A live table stands beside the others. -/
theorem standing_eraseIdx {ts : List Table} {i : Nat} {t : Table} {name : String}
    (h : ts[i]? = some t) (hlive : Entry.isLive t = true) (hname : t.name = some name) :
    (standing ts).Perm ((name, t.isStatic) :: standing (ts.eraseIdx i)) := by
  refine ((live_eraseIdx h hlive).filterMap fun t : Table => t.name.map (·, t.isStatic)).trans (.of_eq ?_)
  rw [List.filterMap_cons, hname]
  rfl

theorem standing_modify {ts : List Table} {i : Nat} {t : Table} (new : String)
    (h : ts[i]? = some t) (hlive : Entry.isLive t = true) :
    (standing (ts.modify i (named new))).Perm ((new, t.isStatic) :: standing (ts.eraseIdx i)) :=
  (live_modify new h hlive).filterMap fun t : Table => t.name.map (·, t.isStatic)

/-! ### A delta that clashes with no name -/

/-- The entry brings no name in that stands already, and no placeholder as a change. -/
def Fits (s : Schema) (t : Table) : Prop :=
  match Entry.change? t with
  | some .add | some .rename => ∀ name, t.name = some name → s.find? name = none
  | some .alter => t.oldName = none
  | some .drop | none => True

theorem Fits.brings_none {s : Schema} {t : Table} {name : String} (h : s.Fits t)
    (hc : Entry.change? t = some .add ∨ Entry.change? t = some .rename) (hname : t.name = some name) :
    s.find? name = none := by
  rcases hc with hc | hc
  · rw [Fits, hc] at h
    exact h name hname
  · rw [Fits, hc] at h
    exact h name hname

/-- Every entry fits when its turn comes. -/
def Fresh (s : Schema) : List (Slot Table) → Prop
  | [] => True
  | slot :: rest => s.Fits slot.value ∧ Fresh (s.applyEntry slot).1 rest

theorem not_standing_of_find? {s : Schema} (ho : s.tables.Ordered) {name : String}
    (h : s.find? name = none) (b : Bool) : (name, b) ∉ standing s.tables.values := by
  intro hmem
  obtain ⟨t, ht, hlive, hname, _⟩ := mem_standing.mp hmem
  rw [find?, Entries.live?_eq_find? ho, List.find?_eq_none] at h
  have hname' : Entry.name t = some name := hname
  exact h t ht (by simp [hname', hlive])

theorem find?_of_findLive? {s : Schema} {name : String} (h : s.tables.findLive? name = none) :
    s.find? name = none := by
  rw [find?, Entries.live?, h, Option.bind_none]

/-- **One entry that fits**: the replay of names lets it through only if it can be
folded in, and tells what stands afterwards. -/
theorem Folded.tracks {s : Schema} {slot : Slot Table} {ts : List Table} {fault : Option Fault}
    {p' : Projection} (h : Folded s slot ts fault) (ho : s.tables.Ordered)
    (ht : Tracks p (standing s.tables.values)) (hfits : s.Fits slot.value)
    (hstep : p.step slot.value = .ok p') : fault = none ∧ Tracks p' (standing ts) := by
  cases h with
  | skip hc =>
    rw [Projection.step_skip _ hc] at hstep
    exact ⟨rfl, Except.ok.inj hstep ▸ ht⟩
  | add hc =>
    obtain ⟨hname, hold⟩ := names_of_change hc
    obtain ⟨name, hname⟩ := Option.isSome_iff_exists.mp hname
    have hlive : Entry.isLive slot.value.collectForeigns = true := isLive_of_oldName hold
    have hfree := not_standing_of_find? ho (hfits.brings_none (.inl hc) hname)
    rw [Projection.step_add _ hc hname] at hstep
    rw [← Except.ok.inj hstep, standing_append, standing_singleton hlive hname]
    exact ⟨rfl, (ht.insert hfree _).perm (List.perm_append_singleton _ _)⟩
  | adopt hc hname hi =>
    have hold : slot.value.oldName = none := by simpa only [Fits, hc] using hfits
    have hlive : Entry.isLive slot.value.collectForeigns = true := isLive_of_oldName hold
    have hfree := not_standing_of_find? ho (find?_of_findLive? hi)
    rw [Projection.step_alter_missing _ hc hname (ht.lookup_none hfree)] at hstep
    rw [← Except.ok.inj hstep, standing_append, standing_singleton hlive hname]
    exact ⟨rfl, (ht.insert hfree _).perm (List.perm_append_singleton _ _)⟩
  | merge hc hname hi hget hstatic hsame =>
    obtain ⟨t, hget', hname', hlive⟩ := found_live hi
    obtain rfl := Option.some.inj (hget.symm.trans hget')
    have hperm := standing_eraseIdx hget hlive hname'
    have hb := (ht.lookup _ _).mpr (hperm.mem_iff.mpr List.mem_cons_self)
    rw [Projection.step_alter _ hc hname hb, hstatic] at hstep
    rw [← Except.ok.inj hstep, standing_append,
      standing_singleton (hsame.isLive.trans hlive) (hsame.name.trans hname'), hsame.isStatic]
    exact ⟨rfl, ht.perm ((List.perm_append_singleton _ _).trans hperm.symm)⟩
  | refuse hc hname hi hget hstatic =>
    obtain ⟨t, hget', hname', hlive⟩ := found_live hi
    obtain rfl := Option.some.inj (hget.symm.trans hget')
    have hb := (ht.lookup _ _).mpr
      ((standing_eraseIdx hget hlive hname').mem_iff.mpr List.mem_cons_self)
    rw [Projection.step_alter _ hc hname hb, hstatic] at hstep
    exact absurd hstep (by simp)
  | miss hc hchange hold hi =>
    have hfree := not_standing_of_find? ho (find?_of_findLive? hi)
    rw [standing_append, standing_placeholder hold, List.append_nil]
    refine ⟨rfl, ?_⟩
    rcases hchange with rfl | rfl
    · rw [Projection.step_drop _ hc hold] at hstep
      exact Except.ok.inj hstep ▸ ht.without_missing hfree
    · obtain ⟨new, hnew⟩ := Option.isSome_iff_exists.mp (names_of_change hc).1
      rw [Projection.step_rename_missing _ hc hold hnew (ht.lookup_none hfree)] at hstep
      exact Except.ok.inj hstep ▸ ht
  | drop hc hold hi =>
    obtain ⟨t, hget, hname, hlive⟩ := found_live hi
    rw [Projection.step_drop _ hc hold] at hstep
    rw [← Except.ok.inj hstep, standing_append, standing_placeholder hold, List.append_nil]
    exact ⟨rfl, (ht.perm (standing_eraseIdx hget hlive hname).symm).without⟩
  | rename hc hold hnew hi =>
    obtain ⟨t, hget, hname, hlive⟩ := found_live hi
    have hperm := standing_eraseIdx hget hlive hname
    have hb := (ht.lookup _ _).mpr (hperm.mem_iff.mpr List.mem_cons_self)
    have hfree := not_standing_of_find? ho (hfits.brings_none (.inr hc) hnew)
    have hfree' : ∀ b, (_, b) ∉ standing (s.tables.values.eraseIdx _) := fun b hmem =>
      hfree b (hperm.mem_iff.mpr (List.mem_cons_of_mem _ hmem))
    rw [Projection.step_rename _ hc hold hnew hb] at hstep
    rw [← Except.ok.inj hstep, standing_append, standing_placeholder hold, List.append_nil]
    exact ⟨rfl, ((ht.perm hperm.symm).without.insert hfree' _).perm (standing_modify _ hget hlive)⟩

/-- A delta of fresh names that the replay lets through is folded in. -/
theorem applyEntries_of_fresh {s : Schema} {slots : List (Slot Table)} {p' : Projection}
    (ho : s.tables.Ordered) (ht : Tracks p (standing s.tables.values)) (hfresh : s.Fresh slots)
    (hcheck : (slots.map Slot.value).foldlM Projection.step p = .ok p') :
    (s.applyEntries slots).2 = none := by
  induction slots generalizing s p with
  | nil => rfl
  | cons slot rest ih =>
    obtain ⟨p₁, hstep, hrest⟩ := Projection.foldlM_cons_ok hcheck
    obtain ⟨hnone, htracks⟩ := (folded_applyEntry s slot).tracks ho ht hfresh.1 hstep
    have hordered := ordered_applyEntry ho slot
    have hlater := hfresh.2
    rw [applyEntries]
    cases hentry : s.applyEntry slot with
    | mk s' fault =>
      rw [hentry] at hnone htracks hordered hlater
      obtain rfl : fault = none := hnone
      exact ih hordered htracks hlater hrest

end Schema
end SchemaShift

import SchemaShift.Proofs.Atomicity
import SchemaShift.Proofs.KeyGraph
import SchemaShift.Proofs.TraceAgain

/-! Marks that tell the truth.

A list that is marked as sorted is looked up by halving, so the answers hang on the
mark being true. An operation that may disturb the order clears the mark, and a
removal does not disturb it. Therefore in everything that the operations make, the
columns (`Table.Made.ordered`) and the tables (`Schema.Made.ordered`) are in order
where they are marked so, which is what the theorems about traces and arrangements
ask of a schema. -/
namespace SchemaShift

/-! ### Lists of entries -/

namespace Entries

variable {ε : Type} [Entry ε]

/-- What the operations on a list make. -/
inductive Made : Entries ε → Prop where
  | ofType (typeName : String) (size : Nat) : Made (ofType typeName size)
  | insert {es} (slot : Slot ε) : Made es → Made (es.insert slot)
  | modify {es} (i : Nat) (f : ε → ε) : Made es → Made (es.modify i f)
  | modify? {es es'} {i : Nat} {f : ε → ε} : Made es → es.modify? i f = some es' → Made es'
  | modifyAll {es} (f : ε → ε) : Made es → Made (es.modifyAll f)
  | steal {es} (start count : Nat) : Made es → Made (es.steal start count).2
  | sort {es} : Made es → Made es.sort
  | removePlaceholders {es} : Made es → Made es.removePlaceholders

variable {es : Entries ε}

theorem Ordered.steal (h : es.Ordered) (start count : Nat) : (es.steal start count).2.Ordered := by
  intro hsorted
  refine (h hsorted).sublist ?_
  show (es.slots.take start ++ es.slots.drop (start + count)).Sublist es.slots
  have hdrop : (es.slots.drop (start + count)).Sublist (es.slots.drop start) := by
    rw [← List.drop_drop]
    exact List.drop_sublist count _
  have hsub := (List.Sublist.refl (es.slots.take start)).append hdrop
  rwa [List.take_append_drop] at hsub

theorem Ordered.removePlaceholders (h : es.Ordered) : es.removePlaceholders.Ordered :=
  fun hsorted => (h hsorted).filter _

/-- **The mark of a list is true.** -/
theorem Made.ordered (h : es.Made) : es.Ordered := by
  induction h with
  | ofType typeName size => exact ordered_of_unsorted rfl
  | insert slot _ _ => exact ordered_of_unsorted rfl
  | modify i f _ ih => exact ih.modify i f
  | modify? _ hsome _ =>
    obtain ⟨slot, _, rfl⟩ := Option.map_eq_some_iff.mp hsome
    exact ordered_of_unsorted rfl
  | modifyAll f _ _ => exact ordered_modifyAll _ f
  | steal start count _ ih => exact ih.steal start count
  | sort _ _ => exact ordered_sort _
  | removePlaceholders _ ih => exact ih.removePlaceholders

/-- **Looking up is scanning**, for whatever the operations make: a list marked as sorted is in order, and
what is found is the first entry of the name, or the first one without an old name. -/
theorem Made.lookup (h : es.Made) :
    (es.sorted = true →
      es.values.Pairwise fun a b => Entry.nameLe (Entry.name a) (Entry.name b) = true) ∧
      ∀ name, es.find? name = es.values.findIdx? (fun e => Entry.name e == some name) ∧
        es.findLive? name = es.values.findIdx? fun e =>
          Entry.name e == some name && (Entry.oldName e).isNone := by
  refine ⟨fun hsorted => List.pairwise_map.mpr (h.ordered hsorted), fun name => ⟨?found, ?live⟩⟩
  case found =>
    rw [find?, position_eq_scan h.ordered, scan, values, List.findIdx?_map]
    simp only [Bool.and_true, Function.comp_def]
  case live =>
    have hlive : ∀ e : ε, Entry.isLive e = (Entry.oldName e).isNone := fun e => by
      rw [Entry.isLive, Entry.isPlaceholder, Option.not_isSome]
    rw [findLive?_eq_findIdx? h.ordered]
    simp only [hlive]

/-- Two entries called `b`, a pending rename in front of a column, behind a pending drop. -/
def crowded : Entries Column :=
  let columns : Entries Column := ofType "items" 0
  ((((columns.insert (.owned (.renameOf "a" "b"))).insert (.owned (.plain "b" .int))).insert
    (.shared (.plain "a" .int))).push (.dropOf "c")).sort

/-- Taking the column `a` out leaves the mark, and both look-ups find the places as they are now. -/
theorem Made.lookup_crowded : (crowded.steal 1 1).2.Made ∧ (crowded.steal 1 1).2.sorted = true ∧
    (crowded.steal 1 1).2.find? "b" = some 1 ∧ (crowded.steal 1 1).2.findLive? "b" = some 2 := by
  have h : (crowded.steal 1 1).2.Made :=
    .steal 1 1 (.sort (.insert _ (.insert _ (.insert _ (.insert _ (.ofType "items" 0))))))
  obtain ⟨hfind, hlive⟩ := h.lookup.2 "b"
  exact ⟨h, rfl, hfind.trans (by decide), hlive.trans (by decide)⟩

end Entries

/-! ### Tables -/

namespace Table

/-- What the operations on a table make. -/
inductive Made : Table → Prop where
  | plain (name : String) : Made (plain name)
  | ofType (name typeName : String) (size : Nat) : Made (ofType name typeName size)
  | static (name : String) {columns : Entries Column} : columns.Made → Made (static name columns)
  | dropOf (old : String) : Made (dropOf old)
  | renameOf (old new : String) : Made (renameOf old new)
  /-- Whatever is not about the columns. -/
  | relabel {t t' : Table} : Made t → t'.columns = t.columns → Made t'
  | addColumn {t t' : Table} {c : Column} : Made t → t.addColumn c = .ok t' → Made t'
  | alterColumn {t t' : Table} {c : Column} : Made t → t.alterColumn c = .ok t' → Made t'
  | dropColumn {t t' : Table} {name : String} : Made t → t.dropColumn name = .ok t' → Made t'
  | renameColumn {t t' : Table} {old new : String} : Made t → t.renameColumn old new = .ok t' → Made t'
  | accumulate {t t' delta : Table} : Made t → t.accumulate delta = .ok t' → Made t'
  | commit {t : Table} (clear set : Flags) : Made t → Made (t.commit clear set)
  /-- The key of a column gets other names. -/
  | rewrite {t : Table} {columns : Entries Column} (i : Nat) (f : Column → Column) : Made t →
      t.columns = .owned columns → Made { t with columns := .owned (columns.modify i f) }

variable {t t' : Table}

theorem ordered_appendSlot (t : Table) (slot : Slot Column) : (t.appendSlot slot).entries.Ordered :=
  Entries.ordered_of_unsorted rfl

/-- Without shared columns the columns can be changed. -/
theorem ownedColumns_ok {columns : Entries Column} (h : t.ownedColumns = .ok columns) : t.entries = columns := by
  unfold ownedColumns at h
  split at h
  · next hcolumns =>
    rw [entries, hcolumns]
    exact Except.ok.inj h
  · exact absurd h (by simp)

theorem bind_ok {β : Type} {x : Except Fault β} {f : β → Except Fault Table} (h : (x >>= f) = .ok t') :
    ∃ b, x = .ok b ∧ f b = .ok t' := by
  cases x with
  | error fault => exact absurd h (by simp [bind, Except.bind])
  | ok b => exact ⟨b, rfl, h⟩

theorem ordered_addColumn {c : Column} (h : t.addColumn c = .ok t') : t'.entries.Ordered := by
  obtain ⟨_, _, h⟩ := bind_ok h
  obtain rfl := Except.ok.inj h
  exact ordered_appendSlot t _

theorem ordered_alterColumn {c : Column} (h : t.alterColumn c = .ok t') : t'.entries.Ordered := by
  unfold alterColumn at h
  split at h
  · obtain ⟨_, _, h⟩ := bind_ok h
    obtain rfl := Except.ok.inj h
    exact ordered_appendSlot t _
  · split at h
    · obtain ⟨columns, _, h⟩ := bind_ok h
      obtain rfl := Except.ok.inj h
      exact ordered_appendSlot _ _
    · exact absurd h (by simp [throw, throwThe, MonadExceptOf.throw])

theorem ordered_dropColumn {name : String} (ho : t.entries.Ordered) (h : t.dropColumn name = .ok t') :
    t'.entries.Ordered := by
  obtain ⟨columns, hcolumns, h⟩ := bind_ok h
  obtain rfl := ownedColumns_ok hcolumns
  split at h
  · obtain rfl := Except.ok.inj h
    exact ordered_appendSlot t _
  · obtain rfl := Except.ok.inj h
    show (t.withoutColumn t.entries name).entries.Ordered
    unfold withoutColumn
    split
    · exact ho.steal _ 1
    · exact ho

theorem ordered_renameColumn {old new : String} (ho : t.entries.Ordered) (h : t.renameColumn old new = .ok t') :
    t'.entries.Ordered := by
  obtain ⟨columns, hcolumns, h⟩ := bind_ok h
  obtain rfl := ownedColumns_ok hcolumns
  split at h
  · obtain rfl := Except.ok.inj h
    exact ordered_appendSlot t _
  · split at h
    · exact absurd h (by simp [throw, throwThe, MonadExceptOf.throw])
    · obtain rfl := Except.ok.inj h
      exact ho.modify _ _

/-- A column log leaves the last column where nothing is sorted. -/
theorem ordered_applyEntry (h : t.entries.Ordered) (slot : Slot Column) : (t.applyEntry slot).entries.Ordered := by
  simp only [applyEntry]
  cases Entry.change? slot.value with
  | none => exact h
  | some change =>
    cases change with
    | add => exact ordered_appendSlot _ slot
    | alter => exact ordered_appendSlot _ slot
    | drop => exact ordered_appendSlot _ slot
    | rename =>
      dsimp only
      split <;> exact ordered_appendSlot _ slot

theorem ordered_accumulate {delta : Table} (ho : t.entries.Ordered) (h : t.accumulate delta = .ok t') :
    t'.entries.Ordered := by
  obtain ⟨columns, _, h⟩ := bind_ok h
  obtain rfl := Except.ok.inj h
  have hstart : (if columns.isEmpty && delta.flags.isChange then t.insertFlags .change else t).entries.Ordered := by
    split <;> exact ho
  generalize (if columns.isEmpty && delta.flags.isChange then t.insertFlags .change else t) = start at hstart ⊢
  generalize delta.entries.slots = slots
  induction slots generalizing start with
  | nil => exact hstart
  | cons slot rest ih => exact ih _ (ordered_applyEntry hstart slot)

/-- Settling touches owned columns, and without them it leaves the columns as they are. -/
theorem ordered_settle {columns : Entries Column} (h : columns.Ordered) : (settle columns).Ordered := by
  intro hsorted
  simp only [settle, Bool.and_eq_true] at hsorted
  refine List.pairwise_map.mpr ((h.removePlaceholders hsorted.1).imp fun {a b} hab => ?_)
  have hname : ∀ slot : Slot Column, Entry.name (settleSlot slot).value = Entry.name slot.value := by
    intro slot
    cases slot <;> rfl
  rwa [hname, hname]

theorem ordered_commit (h : t.entries.Ordered) (clear set : Flags) : (t.commit clear set).entries.Ordered := by
  unfold entries at h
  cases hcolumns : t.columns with
  | owned columns =>
    rw [hcolumns] at h
    simp only [commit, hcolumns]
    exact ordered_settle h
  | shared columns =>
    rw [hcolumns] at h
    simp only [commit, hcolumns]
    exact h

/-- **The mark of the columns is true.** -/
theorem Made.ordered (h : t.Made) : t.entries.Ordered := by
  induction h with
  | plain name => exact Entries.ordered_of_unsorted rfl
  | ofType name typeName size => exact Entries.ordered_of_unsorted rfl
  | static name hcolumns => exact hcolumns.ordered
  | dropOf old => exact Entries.ordered_of_unsorted rfl
  | renameOf old new => exact Entries.ordered_of_unsorted rfl
  | relabel _ hcolumns ih =>
    unfold entries at ih ⊢
    rwa [hcolumns]
  | addColumn _ h _ => exact ordered_addColumn h
  | alterColumn _ h _ => exact ordered_alterColumn h
  | dropColumn _ h ih => exact ordered_dropColumn ih h
  | renameColumn _ h ih => exact ordered_renameColumn ih h
  | accumulate _ h ih => exact ordered_accumulate ih h
  | commit clear set _ ih => exact ordered_commit ih clear set
  | rewrite i f _ hcolumns ih =>
    unfold entries at ih
    rw [hcolumns] at ih
    exact Entries.Ordered.modify ih i f

end Table

/-! ### Schemas -/

namespace Schema

/-- What the operations on a schema make. -/
inductive Made : Schema → Prop where
  | empty (name : String) (version : UInt64) : Made { name, version }
  | createTable {s : Schema} (name : String) : Made s → Made (s.createTable name)
  | createTypedTable {s : Schema} (name typeName : String) (size : Nat) : Made s →
      Made (s.createTypedTable name typeName size)
  | insertStatic {s : Schema} {t : Table} : Made s → t.Made → Made (s.insertStatic t)
  | alterTable {s : Schema} (name : String) : Made s → Made (s.alterTable name)
  | editLast {s : Schema} {f : Table → Table} : Made s → (∀ t : Table, t.Made → (f t).Made) → Made (s.editLast f)
  | dropTable {s : Schema} (name : String) : Made s → Made (s.dropTable name)
  | renameTable {s : Schema} (old new : String) : Made s → Made (s.renameTable old new)
  | findType {s : Schema} (typeName : String) : Made s → Made (s.findType typeName).2
  | accumulate {s delta : Schema} : Made s → Made delta → Made (s.accumulate delta).1
  | traceForeign {s : Schema} (pool : NodePool Fate) (capacity : UInt64) : Made s →
      Made (s.traceForeignWith pool capacity).1
  | clearChanges {s : Schema} (clear set : Flags) : Made s → Made (s.clearChanges clear set)
  | arrange {s : Schema} : Made s → Made s.arrange.2

/-- The tables are in order where they are marked so, and operations made them. -/
structure Sound (tables : Entries Table) : Prop where
  ordered : tables.Ordered
  made : ∀ t ∈ tables.values, t.Made

section Tables
variable {tables : Entries Table}

theorem Sound.insert (h : ∀ t ∈ tables.values, t.Made) {slot : Slot Table} (hslot : slot.value.Made) :
    Sound (tables.insert slot) where
  ordered := Entries.ordered_of_unsorted rfl
  made t ht := by
    rw [Entries.values_insert, List.mem_append, List.mem_singleton] at ht
    rcases ht with ht | rfl
    · exact h t ht
    · exact hslot

theorem Sound.modify (h : Sound tables) (i : Nat) {f : Table → Table} (hf : ∀ t : Table, t.Made → (f t).Made) :
    Sound (tables.modify i f) where
  ordered := h.ordered.modify i f
  made t ht := by
    rw [Entries.values_modify] at ht
    rcases Entries.mem_modify ht with ht | ⟨t', ht', rfl⟩
    · exact h.made t ht
    · exact hf t' (h.made t' ht')

theorem Sound.modifyAll (h : ∀ t ∈ tables.values, t.Made) {f : Table → Table}
    (hf : ∀ t : Table, t.Made → (f t).Made) : Sound (tables.modifyAll f) where
  ordered := Entries.ordered_modifyAll _ f
  made t ht := by
    rw [Entries.values_modifyAll] at ht
    obtain ⟨t', ht', rfl⟩ := List.mem_map.mp ht
    exact hf t' (h t' ht')

end Tables

variable {s : Schema}

/-! ### Folding a delta in -/

theorem made_collectForeigns {t : Table} (h : t.Made) : t.collectForeigns.Made := .relabel h rfl

theorem made_takeTable (h : ∀ t ∈ s.tables.values, t.Made) (i : Nat) :
    ∀ t ∈ (s.takeTable i).tables.values, t.Made := by
  intro t ht
  rw [values_takeTable] at ht
  exact h t (List.mem_of_mem_eraseIdx ht)

theorem sound_registerType (h : Sound s.tables) (t : Table) : Sound (s.registerType t).tables :=
  (tables_registerType s t).symm ▸ h

theorem sound_adopt (h : Sound s.tables) {t : Table} (ht : t.Made) : Sound (s.adopt t).tables :=
  .insert (sound_registerType h _).made (made_collectForeigns ht)

theorem sound_applyAlter (h : Sound s.tables) {t : Table} (ht : t.Made) : Sound (s.applyAlter t).1.tables := by
  unfold applyAlter
  split
  · exact sound_adopt h ht
  · next i _ =>
    split
    · exact sound_adopt h ht
    · next existing hget =>
      rw [← Entries.getElem?_values] at hget
      have hexisting := h.made existing (List.mem_of_getElem? hget)
      split
      · next merged hmerged => exact .insert (made_takeTable h.made i) (hexisting.accumulate hmerged)
      · exact .insert (made_takeTable h.made i) hexisting

theorem sound_renameLive (h : Sound s.tables) (old new : String) : Sound (s.renameLive old new).tables := by
  unfold renameLive
  split
  · exact h
  · next i _ => exact h.modify i fun t ht => .relabel ht rfl

theorem sound_applyEntry (h : Sound s.tables) {slot : Slot Table} (hslot : slot.value.Made) :
    Sound (s.applyEntry slot).1.tables := by
  unfold applyEntry
  cases Entry.change? slot.value with
  | none => exact h
  | some change =>
    cases change with
    | add => exact sound_adopt h hslot
    | alter => exact sound_applyAlter h hslot
    | drop =>
      dsimp only [applyDrop]
      split
      · exact .insert h.made hslot
      · next i _ => exact .insert (made_takeTable h.made i) hslot
    | rename =>
      dsimp only [applyRename]
      split
      · next old new _ _ => exact .insert (sound_renameLive h old new).made hslot
      · exact .insert h.made hslot

theorem sound_applyEntries (h : Sound s.tables) {slots : List (Slot Table)}
    (hslots : ∀ slot ∈ slots, slot.value.Made) : Sound (s.applyEntries slots).1.tables := by
  induction slots generalizing s with
  | nil => exact h
  | cons slot rest ih =>
    have hstep := sound_applyEntry h (hslots slot List.mem_cons_self)
    rw [applyEntries]
    split
    · next s' hentry =>
      rw [hentry] at hstep
      exact ih hstep fun slot hslot => hslots slot (List.mem_cons_of_mem _ hslot)
    · next s' fault hentry => rwa [hentry] at hstep

theorem sound_accumulate (h : Sound s.tables) {delta : Schema} (hdelta : ∀ t ∈ delta.tables.values, t.Made) :
    Sound (s.accumulate delta).1.tables := by
  have hslots : ∀ slot ∈ delta.tables.slots, slot.value.Made := fun slot hslot =>
    hdelta slot.value (List.mem_map_of_mem hslot)
  have hprepared : Sound s.prepared.tables := by
    unfold prepared
    split
    · exact h
    · exact .modifyAll h.made fun t => made_collectForeigns
  have hfolded := sound_applyEntries hprepared hslots
  cases hcheck : s.checkStatic delta with
  | error fault =>
    rw [accumulate, hcheck]
    exact h
  | ok =>
    rw [accumulate_of_check_ok hcheck]
    split <;> next hentries => rwa [hentries] at hfolded

/-! ### Tracing, arranging and committing -/

theorem made_retarget {t : Table} (h : t.Made) (r : Rewrite) : (retarget t r).Made := by
  unfold retarget
  split
  · exact h
  · next columns hcolumns =>
    split
    · exact h
    · next i _ => exact h.rewrite i _ hcolumns

theorem sound_applyRewrites (h : Sound s.tables) (rs : List Rewrite) : Sound (s.applyRewrites rs).1.tables := by
  induction rs generalizing s with
  | nil => exact h
  | cons r rest ih =>
    rw [applyRewrites_cons]
    refine ih ⟨(applyRewrites_rest s [r]).2 h.ordered, ?_⟩
    rw [(applyRewrite_spec s r).1, ← Entries.values_modify]
    exact (h.modify r.table fun t ht => made_retarget ht r).made

theorem sound_arrange (h : Sound s.tables) : Sound s.arrange.2.tables where
  ordered := Entries.ordered_sort _
  made t ht := by
    obtain ⟨u, hu⟩ := List.mem_iff_getElem?.mp ht
    rw [Entries.getElem?_values, get?_arrange] at hu
    obtain ⟨t', ht', rfl⟩ := Option.map_eq_some_iff.mp hu
    have hmade := h.made t' (mem_of_get? ht')
    unfold arranged
    split
    · exact .relabel hmade rfl
    · exact hmade

theorem sound_clearChanges (h : Sound s.tables) (clear set : Flags) : Sound (s.clearChanges clear set).tables := by
  refine .modifyAll (fun t ht => ?_) fun t ht => ht.commit clear set
  obtain ⟨slot, hslot, rfl⟩ := List.mem_map.mp ht
  exact h.made _ (List.mem_map_of_mem (List.mem_filter.mp hslot).1)

theorem Made.sound (h : s.Made) : Sound s.tables := by
  induction h with
  | empty name version => exact ⟨Entries.ordered_of_unsorted rfl, fun t ht => absurd ht List.not_mem_nil⟩
  | createTable name _ ih => exact .insert (sound_registerType ih _).made (.plain name)
  | createTypedTable name typeName size _ ih =>
    exact .insert (sound_registerType ih _).made (.ofType name typeName size)
  | insertStatic _ ht ih => exact .insert (sound_registerType ih _).made ht
  | alterTable name _ ih => exact .insert ih.made (.relabel (.plain name) rfl)
  | editLast _ hf ih => exact ih.modify _ hf
  | dropTable name _ ih => exact .insert ih.made (.dropOf name)
  | renameTable old new _ ih => exact .insert ih.made (.renameOf old new)
  | findType typeName _ ih =>
    show Sound (sortTypes _).tables
    unfold sortTypes
    split <;> exact ih
  | accumulate _ _ ih ih' => exact sound_accumulate ih ih'.made
  | traceForeign pool capacity _ ih => exact sound_applyRewrites ih _
  | clearChanges clear set _ ih => exact sound_clearChanges ih clear set
  | arrange _ ih => exact sound_arrange ih

/-- **The marks of a schema are true**, that of its tables and those of their columns. -/
theorem Made.ordered (h : s.Made) : s.tables.Ordered ∧ ∀ t ∈ s.tables.values, t.entries.Ordered :=
  ⟨h.sound.ordered, fun t ht => (h.sound.made t ht).ordered⟩

end Schema
end SchemaShift

import SchemaShift.Proofs.Flags
import SchemaShift.Proofs.TraceAgain

/-! What a commit leaves.

A commit takes the log of tables away and the log of every column list that a table
owns, and nothing else (`Table.settled_commit`). The windows that a trace reads are
empty then, so that a trace finds every name to be what it was: it has nothing to
rewrite, and can only miss a table (`Schema.Committed.traceForeign`). To commit again
changes nothing (`Schema.clearChanges_again`). -/
namespace SchemaShift

namespace Entries

variable {ε : Type}

theorem removePlaceholders_of_live [Entry ε] {es : Entries ε} (h : ∀ e ∈ es.values, Entry.isLive e = true) :
    es.removePlaceholders = es := by
  have hslots : es.slots.filter (fun slot => Entry.isLive slot.value) = es.slots :=
    List.filter_eq_self.mpr fun slot hslot => h slot.value (List.mem_map_of_mem hslot)
  rw [removePlaceholders, hslots]

/-- Changing every entry again changes nothing if it changes nothing in any. -/
theorem modifyAll_modifyAll {f : ε → ε} (h : ∀ e, f (f e) = f e) (es : Entries ε) :
    (es.modifyAll f).modifyAll f = es.modifyAll f := by
  have hslots : (es.slots.map (Slot.modify f)).map (Slot.modify f) = es.slots.map (Slot.modify f) := by
    rw [List.map_map]
    exact List.map_congr_left fun slot _ => congrArg Slot.owned (h slot.value)
  have hempty : (es.modifyAll f).isEmpty = es.isEmpty := by simp [isEmpty, modifyAll]
  rw [modifyAll, hempty]
  simp [modifyAll, hslots]

end Entries

namespace Table

variable {t : Table} {columns : Entries Column} {clear set : Flags}

/-- A slot as a commit leaves it: a shared column as it is, and an owned one without the change flag. -/
inductive Kept : Slot Column → Slot Column → Prop
  | shared (c : Column) : Kept (.shared c) (.shared c)
  | owned (c : Column) : Kept (.owned c) (.owned (c.removeFlags .change))

/-- A table as a commit leaves it. -/
structure Settled (clear set : Flags) (t t' : Table) : Prop where
  entry : (t'.name, t'.oldName, t'.rank) = (t.name, t.oldName, t.rank)
  /-- Of columns of its own the live ones stay, in order. -/
  owned : ∀ columns, t.columns = .owned columns → ∃ columns', t'.columns = .owned columns' ∧
    (columns'.typeName, columns'.size) = (columns.typeName, columns.size) ∧
    List.Forall₂ Kept (columns.slots.filter fun slot => Entry.isLive slot.value) columns'.slots
  shared : ∀ columns, t.columns = .shared columns → t'.columns = .shared columns
  flags : t'.flags = ((t.flags.remove .change).remove clear).insert set
  unmarked : t'.flags.isChange = false
  offset : t'.offset = t'.entries.length
  foreigns : t'.foreigns = (t'.entries.values.filter fun c => Entry.isLive c && c.hasForeign).filterMap Column.name

theorem forall₂_settleSlot (slots : List (Slot Column)) : List.Forall₂ Kept slots (slots.map settleSlot) := by
  induction slots with
  | nil => exact .nil
  | cons slot rest ih =>
    cases slot with
    | shared c => exact .cons (.shared c) ih
    | owned c => exact .cons (.owned c) ih

theorem isChange_masked (hset : set.isChange = false) (f : Flags) :
    (((f.remove .change).remove clear).insert set).isChange = false := by
  have hremoved := f.isChange_remove
  rw [Flags.isChange_eq] at hset hremoved ⊢
  rw [Flags.bit_insert, Flags.bit_remove, hremoved, hset]
  rfl

/-- **A commit of a table.** -/
theorem settled_commit (t : Table) (clear : Flags) (hset : set.isChange = false) :
    Settled clear set t (t.commit clear set) where
  entry := rfl
  owned columns hcolumns := by
    refine ⟨settle columns, by simp only [commit, collectForeigns, hcolumns], rfl, ?_⟩
    exact forall₂_settleSlot _
  shared columns hcolumns := by simp only [commit, collectForeigns, hcolumns]
  flags := rfl
  unmarked := isChange_masked hset t.flags
  offset := rfl
  foreigns := rfl

theorem settleSlot_settleSlot (slot : Slot Column) : settleSlot (settleSlot slot) = settleSlot slot := by
  cases slot with
  | shared c => rfl
  | owned c =>
    exact congrArg (fun flags => Slot.owned { c with flags }) (c.flags.remove_remove .change)

theorem isOwned_settleSlot (slot : Slot Column) : (settleSlot slot).isOwned = slot.isOwned := by
  cases slot <;> rfl

theorem isLive_settleSlot (slot : Slot Column) : Entry.isLive (settleSlot slot).value = Entry.isLive slot.value := by
  cases slot <;> rfl

theorem settle_settle (columns : Entries Column) : settle (settle columns) = settle columns := by
  have hlive : ∀ c ∈ (settle columns).values, Entry.isLive c = true := by
    intro c hc
    obtain ⟨slot, hslot, rfl⟩ := List.mem_map.mp hc
    obtain ⟨slot', hslot', rfl⟩ := List.mem_map.mp hslot
    rw [isLive_settleSlot]
    exact (List.mem_filter.mp hslot').2
  have hslots : (settle columns).slots.map settleSlot = (settle columns).slots := by
    show (columns.removePlaceholders.slots.map settleSlot).map settleSlot = _
    rw [List.map_map]
    exact List.map_congr_left fun slot _ => settleSlot_settleSlot slot
  have hsorted : ((settle columns).sorted && !(settle columns).slots.any Slot.isOwned) = (settle columns).sorted := by
    have howned : (settle columns).slots.any Slot.isOwned = columns.removePlaceholders.slots.any Slot.isOwned := by
      show (columns.removePlaceholders.slots.map settleSlot).any Slot.isOwned = _
      rw [List.any_map, show Slot.isOwned ∘ settleSlot = Slot.isOwned from funext isOwned_settleSlot]
    show ((_ && !columns.removePlaceholders.slots.any Slot.isOwned) && _) = _
    rw [howned, Bool.and_assoc, Bool.and_self]
    rfl
  conv_lhs => rw [settle, Entries.removePlaceholders_of_live hlive]
  rw [hslots, hsorted]

theorem masked_masked (f clear set : Flags) :
    ((((((f.remove .change).remove clear).insert set).remove .change).remove clear).insert set) =
      ((f.remove .change).remove clear).insert set := by
  refine Flags.ext_bit fun i => ?_
  simp only [Flags.bit_insert, Flags.bit_remove]
  cases f.bit i <;> cases Flags.change.bit i <;> cases clear.bit i <;> cases set.bit i <;> rfl

theorem commit_commit (t : Table) (clear set : Flags) :
    (t.commit clear set).commit clear set = t.commit clear set := by
  cases hcolumns : t.columns with
  | owned columns => simp only [commit, collectForeigns, hcolumns, settle_settle, masked_masked]; rfl
  | shared columns => simp only [commit, collectForeigns, hcolumns, masked_masked]; rfl

end Table

namespace Schema

variable {s : Schema} {p : NodePool Fate}

/-- **Nothing pending, nothing to trace.** -/
theorem Committed.tableFate (h : s.Committed) (name : String) : s.tableFate name = .name name := by
  rw [Schema.tableFate, h.offset, List.drop_length]
  exact RenameGraph.greedyEnd_of_none rfl

theorem Committed.traceForeignWith (h : s.Committed) (hp : p.Valid) (capacity : UInt64) :
    (s.traceForeignWith p capacity).1 = s ∧
      ∀ fault ∈ (s.traceForeignWith p capacity).2.1, ∃ name, fault = .entryNotFound name := by
  have hstill : s.Still := fun t ht => (h.tables t ht).1
  have hasked : (sites s.tables.values.zipIdx).filterMap s.asked? = [] := by
    refine List.filterMap_eq_nil_iff.mpr fun site _ => ?_
    rw [(outcome_still hstill h.tableFate site).1]
    simp [rewrite?, Fate.name?, newName?_self]
  obtain ⟨hschema, hfaults⟩ := s.traceForeignWith_eq hp capacity
  rw [hschema, hfaults, hasked]
  refine ⟨rfl, fun fault hfault => ?_⟩
  rw [applyRewrites, List.append_nil] at hfault
  obtain ⟨site, _, hsite⟩ := List.mem_filterMap.mp hfault
  rw [(outcome_still hstill h.tableFate site).2, report?] at hsite
  dsimp only at hsite
  split at hsite
  · exact ⟨_, (Option.some.inj hsite).symm⟩
  · exact absurd hsite (by simp)

/-- **Committing again** changes nothing. -/
theorem clearChanges_again (s : Schema) (clear set : Flags) :
    (s.clearChanges clear set).clearChanges clear set = s.clearChanges clear set := by
  have hkept := Entries.removePlaceholders_of_live (s.committed_clearChanges clear set).live
  have htables : (s.clearChanges clear set).tables.modifyAll (fun t => t.commit clear set) =
      (s.clearChanges clear set).tables :=
    Entries.modifyAll_modifyAll (f := fun t : Table => t.commit clear set) (fun t => t.commit_commit clear set) _
  have hoffset : (s.clearChanges clear set).tables.length = (s.clearChanges clear set).offset := by
    rw [(s.committed_clearChanges clear set).offset, Entries.length, Entries.values, List.length_map]
  have hflags : (s.clearChanges clear set).flags.remove .change = (s.clearChanges clear set).flags :=
    s.flags.remove_remove .change
  conv_lhs => rw [clearChanges]
  rw [hkept, htables, hoffset, hflags]

/-- **What a commit leaves.** The live tables in order, each as a commit leaves a table; neither they nor
the schema are marked as changed, and all of it is committed. A trace finds nothing to rewrite and can
only miss tables, and committing again changes nothing. -/
theorem clearChanges_normal (s : Schema) (clear : Flags) {set : Flags} (hset : set.isChange = false) :
    List.Forall₂ (Table.Settled clear set) (s.tables.values.filter Entry.isLive)
        (s.clearChanges clear set).tables.values ∧
      (s.clearChanges clear set).flags.isChange = false ∧
      (s.clearChanges clear set).offset = (s.clearChanges clear set).tables.length ∧
      (s.clearChanges clear set).traceForeign.1 = s.clearChanges clear set ∧
      (∀ fault ∈ (s.clearChanges clear set).traceForeign.2, ∃ name, fault = .entryNotFound name) ∧
      (s.clearChanges clear set).clearChanges clear set = s.clearChanges clear set := by
  have hcommitted := s.committed_clearChanges clear set
  obtain ⟨hschema, hfaults⟩ := hcommitted.traceForeignWith (NodePool.valid_ofChunkSize NodePool.defaultChunkSize)
    RenameGraph.defaultCapacity
  refine ⟨?_, s.flags.isChange_remove, ?_, hschema, hfaults, s.clearChanges_again clear set⟩
  · rw [values_clearChanges]
    exact List.forall₂_map_right_iff.mpr (List.forall₂_same.mpr fun t _ => t.settled_commit clear hset)
  · rw [hcommitted.offset, Entries.length, Entries.values, List.length_map]

/-- Users with a column log, in a schema with a log of tables. -/
def draft : Schema :=
  { name := "app", version := 1, flags := .change
    tables := { slots := [
      .owned { name := some "users", flags := .change
               columns := .owned { slots := [.owned (.plain "id" .int), .owned (Column.plain "mail" .string).alter,
                 .owned (.dropOf "note")] } },
      .owned (.renameOf "members" "users")] } }

/-- Of the users two columns stay, and of the logs nothing. -/
theorem clearChanges_normal_draft :
    Flags.pointer.isChange = false ∧
      (draft.clearChanges .empty .pointer).tables.values.map (fun t => t.entries.values.filterMap Column.name) =
        [["id", "mail"]] ∧
      List.Forall₂ (Table.Settled .empty .pointer) (draft.tables.values.filter Entry.isLive)
        (draft.clearChanges .empty .pointer).tables.values ∧
      (draft.clearChanges .empty .pointer).traceForeign.1 = draft.clearChanges .empty .pointer ∧
      (draft.clearChanges .empty .pointer).clearChanges .empty .pointer = draft.clearChanges .empty .pointer := by
  have hset : Flags.pointer.isChange = false := by decide
  obtain ⟨htables, _, _, htrace, _, hagain⟩ := draft.clearChanges_normal .empty hset
  exact ⟨hset, by decide +kernel, htables, htrace, hagain⟩

end Schema
end SchemaShift

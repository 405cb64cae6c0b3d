import SchemaShift.Proofs.ArrangedTrace
import SchemaShift.Proofs.SortedMarks
import SchemaShift.Proofs.PendingWindow
import Mathlib.Data.Prod.Lex

/-! The type index.

Beside its tables a schema keeps a list of types, each with the name of the table that
describes it. Every operation that brings a table in, takes one out or gives one another
name writes to that list too, and none of them looks at it. While no two live tables
share a name the list says of the live tables what they say themselves (`Schema.Agrees`),
whatever came before (`Schema.Registered.indexed`). A look-up sees nothing but the first
place of a type in the list: that is enough to find the table
(`Schema.Registered.findType_spec`). -/
namespace SchemaShift

/-! ### What changes no type -/

namespace Table

variable {t t' : Table}

theorem typeName_modify (columns : Entries Column) (i : Nat) (f : Column → Column) :
    (columns.modify i f).typeName = columns.typeName := by
  unfold Entries.modify
  split <;> rfl

/-- Edits leave the type that the columns describe. -/
theorem Edited.typeName (h : Edited t t') : t'.typeName = t.typeName := by
  induction h with
  | refl => rfl
  | foreigns foreigns _ ih => exact ih
  | append slot _ _ ih => exact ih
  | take i _ hcolumns ih =>
    rw [← ih, Table.typeName, Table.typeName, entries, entries, hcolumns]
    rfl
  | rename i new _ hcolumns ih =>
    rw [← ih, Table.typeName, Table.typeName, entries, entries, hcolumns]
    exact typeName_modify _ i _

theorem typeName_accumulate {delta merged : Table} (h : t.accumulate delta = .ok merged) :
    merged.typeName = t.typeName := by
  obtain ⟨columns, hcolumns, h⟩ := bind_ok h
  obtain rfl := Except.ok.inj h
  have howned := owned_of_ownedColumns hcolumns
  split
  · exact (edited_foldl (t := t.insertFlags .change) howned _).typeName
  · exact (edited_foldl howned _).typeName

theorem typeName_commit (t : Table) (clear set : Flags) : (t.commit clear set).typeName = t.typeName := by
  cases hcolumns : t.columns <;> simp only [typeName, entries, commit, hcolumns] <;> rfl

end Table

namespace Schema

theorem typeName_retarget (t : Table) (r : Rewrite) : (retarget t r).typeName = t.typeName := by
  unfold retarget
  split
  · rfl
  · next columns hcolumns =>
    split
    · rfl
    · rw [Table.typeName, Table.typeName, Table.entries, Table.entries, hcolumns]
      exact Table.typeName_modify columns _ _

theorem typeName_arranged (s : Schema) (u : Nat) (t : Table) : (s.arranged u t).typeName = t.typeName := by
  unfold arranged
  split <;> rfl

/-! ### Types of live tables -/

/-- The types of the live tables in table order, each with the name of its table. -/
def typed (tables : List Table) : List (String × Option String) :=
  (tables.filter Entry.isLive).map fun t => (t.typeName, t.name)

variable {s s' delta : Schema} {t : Table} {tables tables' : List Table} {i : Nat} {name : String}

theorem typed_append (tables tables' : List Table) : typed (tables ++ tables') = typed tables ++ typed tables' := by
  simp [typed]

theorem typed_live (h : Entry.isLive t = true) : typed [t] = [(t.typeName, t.name)] := by
  simp [typed, h]

theorem typed_placeholder (h : Entry.isLive t = false) : typed [t] = [] := by
  simp [typed, h]

/-- All that the index can tell of a table. -/
def facet (t : Table) : Bool × String × Option String := (Entry.isLive t, t.typeName, t.name)

theorem typed_congr (h : tables'.map facet = tables.map facet) : typed tables' = typed tables := by
  have hfacet : ∀ tables, typed tables = ((tables.map facet).filter Prod.fst).map Prod.snd := by
    intro tables
    rw [List.filter_map, List.map_map]
    rfl
  rw [hfacet, hfacet, h]

/-- A live table has its type beside those of the others. -/
theorem typed_eraseIdx (h : tables[i]? = some t) (hlive : Entry.isLive t = true) :
    (typed tables).Perm ((t.typeName, t.name) :: typed (tables.eraseIdx i)) :=
  (live_eraseIdx h hlive).map fun t : Table => (t.typeName, t.name)

theorem typed_modify (new : String) (h : tables[i]? = some t) (hlive : Entry.isLive t = true) :
    (typed (tables.modify i (named new))).Perm ((t.typeName, some new) :: typed (tables.eraseIdx i)) :=
  (live_modify new h hlive).map fun t : Table => (t.typeName, t.name)

theorem distinct_iff_typed (tables : Entries Table) :
    tables.Distinct ↔ ((typed tables.values).filterMap Prod.snd).Nodup := by
  rw [typed, List.filterMap_map]
  rfl

/-! ### An index that agrees with the tables -/

/-- Every live table has a name, and the index holds the types that live tables describe,
with the names of those tables, and nothing else. -/
structure Agrees (index : List (String × String)) (types : List (String × Option String)) : Prop where
  named : ∀ entry ∈ types, entry.2 ≠ none
  mem : ∀ entry, entry ∈ index ↔ entry.1 ≠ "" ∧ (entry.1, some entry.2) ∈ types

variable {index index' : List (String × String)} {types types' : List (String × Option String)} {typeName : String}

theorem Agrees.perm (h : Agrees index types) (hperm : types'.Perm types) : Agrees index types' where
  named entry hentry := h.named entry (hperm.mem_iff.mp hentry)
  mem entry := (h.mem entry).trans (and_congr_right fun _ => hperm.mem_iff.symm)

/-- A table comes in. -/
theorem Agrees.insert (h : Agrees index types) (hindex : ∀ entry, entry ∈ index' ↔
      entry ∈ index ∨ entry.1 ≠ "" ∧ entry = (typeName, name)) :
    Agrees index' (types ++ [(typeName, some name)]) where
  named entry hentry := by
    rcases List.mem_append.mp hentry with hentry | hentry
    · exact h.named entry hentry
    · rw [List.mem_singleton.mp hentry]
      exact Option.some_ne_none name
  mem entry := by
    have hlast : (entry.1, some entry.2) = (typeName, some name) ↔ entry = (typeName, name) := by
      simp [Prod.ext_iff]
    rw [hindex, h.mem, ← and_or_left, List.mem_append, List.mem_singleton, hlast]

section Away
variable (h : Agrees index ((typeName, some name) :: types))
  (hd : (((typeName, some name) :: types).filterMap Prod.snd).Nodup)
include h hd

/-- No other table has the name of the one that goes. -/
theorem Agrees.mem_types {entry : String × String} :
    (entry.1, some entry.2) ∈ types ↔
      entry.2 ≠ name ∧ (entry.1, some entry.2) ∈ (typeName, some name) :: types := by
  have hnodup : (name :: types.filterMap Prod.snd).Nodup := hd
  constructor
  · intro hentry
    refine ⟨?_, List.mem_cons_of_mem _ hentry⟩
    rintro rfl
    exact (List.nodup_cons.mp hnodup).1 (List.mem_filterMap.mpr ⟨_, hentry, rfl⟩)
  · rintro ⟨hne, hentry⟩
    refine (List.mem_cons.mp hentry).resolve_left fun heq => hne ?_
    exact Option.some.inj (congrArg Prod.snd heq)

/-- A table goes. -/
theorem Agrees.drop : Agrees (index.filter fun entry => some entry.2 != some name) types where
  named entry hentry := h.named entry (List.mem_cons_of_mem _ hentry)
  mem entry := by
    have hkept : (some entry.2 != some name) = true ↔ entry.2 ≠ name := by simp
    rw [List.mem_filter, hkept, h.mem, h.mem_types hd]
    exact ⟨fun ⟨⟨htype, hentry⟩, hne⟩ => ⟨htype, hne, hentry⟩, fun ⟨htype, hne, hentry⟩ => ⟨⟨htype, hentry⟩, hne⟩⟩

/-- A table gets another name. -/
theorem Agrees.rename (new : String) :
    Agrees (index.map fun entry => if entry.2 == name then (entry.1, new) else entry)
      ((typeName, some new) :: types) where
  named entry hentry := by
    rcases List.mem_cons.mp hentry with rfl | hentry
    · exact Option.some_ne_none new
    · exact h.named entry (List.mem_cons_of_mem _ hentry)
  mem entry := by
    rw [List.mem_map, List.mem_cons]
    constructor
    · rintro ⟨old, hold, rfl⟩
      obtain ⟨htype, hentry⟩ := (h.mem old).mp hold
      by_cases hname : old.2 = name
      · simp only [hname, beq_self_eq_true, if_true]
        refine ⟨htype, .inl ?_⟩
        rcases List.mem_cons.mp hentry with heq | hentry
        · rw [(Prod.ext_iff.mp heq).1]
        · exact absurd hname ((h.mem_types hd).mp hentry).1
      · rw [if_neg (by simpa using hname)]
        exact ⟨htype, .inr ((h.mem_types hd).mpr ⟨hname, hentry⟩)⟩
    · rintro ⟨htype, heq | hentry⟩
      · obtain ⟨hfst, hsnd⟩ := Prod.ext_iff.mp heq
        refine ⟨(entry.1, name), (h.mem _).mpr ⟨htype, ?_⟩, ?_⟩
        · rw [show entry.1 = typeName from hfst]
          exact List.mem_cons_self
        · rw [if_pos (beq_self_eq_true name)]
          exact Prod.ext rfl (Option.some.inj hsnd).symm
      · have hne := ((h.mem_types hd).mp hentry).1
        exact ⟨entry, (h.mem entry).mpr ⟨htype, List.mem_cons_of_mem _ hentry⟩, if_neg (by simpa using hne)⟩

end Away

/-! ### Schemas whose index agrees -/

/-- The index agrees with the tables, and stands by type where it is marked as sorted. -/
structure Indexed (s : Schema) : Prop where
  ordered : s.tables.Ordered
  distinct : s.tables.Distinct
  agrees : Agrees s.typeIndex (typed s.tables.values)
  sorted : s.typeIndexSorted = true → s.typeIndex.Pairwise fun a b => a.1 ≤ b.1

/-- Types and names of live tables are all that the index is about. -/
theorem Indexed.of_perm (h : Indexed s) (hperm : (typed s'.tables.values).Perm (typed s.tables.values))
    (hordered : s'.tables.Ordered) (hindex : s'.typeIndex = s.typeIndex)
    (hsorted : s'.typeIndexSorted = s.typeIndexSorted) : Indexed s' where
  ordered := hordered
  distinct := (distinct_iff_typed _).mpr
    (((hperm.filterMap Prod.snd).nodup_iff).mpr ((distinct_iff_typed _).mp h.distinct))
  agrees := hindex ▸ h.agrees.perm hperm
  sorted := by
    rw [hindex, hsorted]
    exact h.sorted

/-- A placeholder comes in. -/
theorem typed_appendPlaceholder {slot : Slot Table} (hlive : Entry.isLive slot.value = false) (s : Schema) :
    typed (s.appendSlot slot).tables.values = typed s.tables.values := by
  rw [values_appendSlot, typed_append, typed_placeholder hlive, List.append_nil]

theorem Indexed.appendPlaceholder (h : Indexed s) {slot : Slot Table} (hlive : Entry.isLive slot.value = false) :
    Indexed (s.appendSlot slot) :=
  h.of_perm (.of_eq (typed_appendPlaceholder hlive s)) (Entries.ordered_of_unsorted rfl) rfl rfl

/-- What a table adds to the index. -/
theorem mem_registerType (s : Schema) (hname : t.name = some name) (entry : String × String) :
    entry ∈ (s.registerType t).typeIndex ↔ entry ∈ s.typeIndex ∨ entry.1 ≠ "" ∧ entry = (t.typeName, name) := by
  rw [registerType, hname]
  dsimp only
  split
  · next hempty =>
    rw [String.isEmpty_iff] at hempty
    refine ⟨.inl, fun h => h.resolve_right ?_⟩
    rintro ⟨htype, rfl⟩
    exact htype hempty
  · next hempty =>
    rw [String.isEmpty_iff] at hempty
    rw [List.mem_append, List.mem_singleton]
    refine or_congr_right ⟨?_, And.right⟩
    rintro rfl
    exact ⟨hempty, rfl⟩

theorem sorted_registerType (hsorted : s.typeIndexSorted = true → s.typeIndex.Pairwise fun a b => a.1 ≤ b.1)
    (t : Table) : (s.registerType t).typeIndexSorted = true →
      (s.registerType t).typeIndex.Pairwise fun a b => a.1 ≤ b.1 := by
  unfold registerType
  split
  · split
    · exact hsorted
    · exact fun h => absurd h Bool.false_ne_true
  · exact hsorted

/-- A live table comes in; the index is told of one with its type and its name. -/
theorem Indexed.enter (h : Indexed s) (told : Table) (htold : (told.typeName, told.name) = (t.typeName, some name))
    (hname : t.name = some name) (hlive : Entry.isLive t = true)
    (hvalues : s'.tables.values = s.tables.values ++ [t]) (hordered : s'.tables.Ordered)
    (hdistinct : s'.tables.Distinct) (hindex : s'.typeIndex = (s.registerType told).typeIndex)
    (hsorted : s'.typeIndexSorted = (s.registerType told).typeIndexSorted) : Indexed s' where
  ordered := hordered
  distinct := hdistinct
  agrees := by
    obtain ⟨htype, htoldName⟩ := Prod.mk.inj htold
    rw [hvalues, hindex, typed_append, typed_live hlive, hname]
    refine h.agrees.insert fun entry => ?_
    rw [mem_registerType s htoldName, htype]
  sorted := by
    rw [hindex, hsorted]
    exact sorted_registerType h.sorted told

/-- A live table gives its place up for another version of it, at the end. -/
theorem Indexed.replace (h : Indexed s) {merged : Table} (hi : s.tables.values[i]? = some t)
    (hlive : Entry.isLive t = true)
    (hsame : (merged.typeName, merged.name, Entry.isLive merged) = (t.typeName, t.name, Entry.isLive t)) :
    Indexed ((s.takeTable i).appendSlot (.owned merged)) := by
  simp only [Prod.mk.injEq] at hsame
  obtain ⟨htype, hname, hmerged⟩ := hsame
  have hvalues : ((s.takeTable i).appendSlot (.owned merged)).tables.values =
      s.tables.values.eraseIdx i ++ [merged] := by
    rw [values_appendSlot, values_takeTable]
    rfl
  refine h.of_perm ?_ (Entries.ordered_of_unsorted rfl) rfl rfl
  rw [hvalues, typed_append, typed_live (hmerged.trans hlive), htype, hname]
  exact (List.perm_append_singleton _ _).trans (typed_eraseIdx hi hlive).symm

/-- The index agrees with a live table and the others beside it, none of which has its name. -/
theorem Indexed.beside (h : Indexed s) (hi : s.tables.values[i]? = some t) (hlive : Entry.isLive t = true)
    (hname : t.name = some name) :
    Agrees s.typeIndex ((t.typeName, some name) :: typed (s.tables.values.eraseIdx i)) ∧
      (((t.typeName, some name) :: typed (s.tables.values.eraseIdx i)).filterMap Prod.snd).Nodup := by
  have hperm := typed_eraseIdx hi hlive
  rw [hname] at hperm
  exact ⟨h.agrees.perm hperm.symm, ((hperm.filterMap Prod.snd).nodup_iff).mp ((distinct_iff_typed _).mp h.distinct)⟩

/-- A live table is dropped, and its types with it. -/
theorem Indexed.leave (h : Indexed s) (hi : s.tables.values[i]? = some t) (hlive : Entry.isLive t = true)
    (hname : t.name = some name) :
    Indexed { s.takeTable i with typeIndex := s.typeIndex.filter fun entry => some entry.2 != some name } := by
  have hvalues := values_takeTable s i
  obtain ⟨hagrees, hnodup⟩ := h.beside hi hlive hname
  refine ⟨h.ordered.steal i 1, (distinct_iff_typed _).mpr ?_, ?_, fun hsorted => (h.sorted hsorted).filter _⟩
  · rw [hvalues]
    exact (List.nodup_cons.mp hnodup).2
  · rw [hvalues]
    exact hagrees.drop hnodup

/-- The live table of a name gets another one, where it is and in the index. -/
theorem Indexed.renameLive (h : Indexed s) (old new : String) (hd : (s.renameLive old new).tables.Distinct) :
    Indexed (s.renameLive old new) := by
  unfold Schema.renameLive at hd ⊢
  split at hd
  · exact h
  · next i hi =>
    obtain ⟨t, hget, hname, hlive⟩ := found_live hi
    have hvalues : (s.tables.modify i (named new)).values = s.tables.values.modify i (named new) :=
      Entries.values_modify _ _ _
    obtain ⟨hagrees, hnodup⟩ := h.beside hget hlive hname
    refine ⟨h.ordered.modify i _, hd, ?_, fun hsorted => ?_⟩
    · show Agrees _ (typed (s.tables.modify i (named new)).values)
      rw [hvalues]
      exact (hagrees.rename hnodup new).perm (typed_modify new hget hlive)
    · refine List.pairwise_map.mpr ((h.sorted hsorted).imp fun {a b} hab => ?_)
      split <;> split <;> exact hab

/-! ### Folding a delta in -/

/-- No placeholder is marked as a change. -/
def Unmarked (tables : List Table) : Prop := ∀ t ∈ tables, Entry.isLive t = false → t.flags.isChange = false

/-- The placeholders that operations leave are drops and renames. -/
theorem Reached.unmarked {l : Ledger} (h : Reached s l) : Unmarked s.tables.values := by
  intro t ht hdead
  have hplaceholder : Entry.isPlaceholder t = true := by simpa [Entry.isLive] using hdead
  have hmem := List.mem_filter.mpr ⟨ht, hplaceholder⟩
  rw [h.told.log] at hmem
  obtain ⟨change, _, rfl⟩ := List.mem_map.mp hmem
  have hpointer : Flags.pointer.isChange = false := by decide
  cases change <;> exact hpointer

theorem isChange_of_alter (h : Entry.change? t = some .alter) : t.flags.isChange = true := by
  have hflags : Entry.flags t = t.flags := rfl
  rw [Entry.change?, hflags] at h
  split at h <;> grind

theorem Indexed.adopt (h : Indexed s) (hname : t.name = some name) (hlive : Entry.isLive t = true)
    (hd : (s.adopt t).tables.Distinct) : Indexed (s.adopt t) :=
  h.enter (t := t.collectForeigns) t.collectForeigns (by rw [← hname]; rfl) hname hlive (values_adopt s t)
    (Entries.ordered_of_unsorted rfl) hd rfl rfl

/-- **One entry of a delta** leaves an index that agrees with the tables. -/
theorem Indexed.applyEntry (h : Indexed s) {slot : Slot Table}
    (hslot : Entry.isLive slot.value = false → slot.value.flags.isChange = false)
    (hd : (s.applyEntry slot).1.tables.Distinct) : Indexed (s.applyEntry slot).1 := by
  have hdead : ∀ {old : String}, slot.value.oldName = some old → Entry.isLive slot.value = false :=
    fun hold => not_isLive_of_oldName hold
  cases hkind : Entry.change? slot.value with
  | none => simpa only [Schema.applyEntry, hkind] using h
  | some change =>
    have hnames := names_of_change hkind
    cases change with
    | add =>
      obtain ⟨name, hname⟩ := Option.isSome_iff_exists.mp hnames.1
      simp only [Schema.applyEntry, hkind] at hd ⊢
      exact h.adopt hname (isLive_of_oldName hnames.2) hd
    | alter =>
      obtain ⟨name, hname⟩ := Option.isSome_iff_exists.mp hnames
      have hlive : Entry.isLive slot.value = true := by
        by_contra hdead
        rw [Bool.not_eq_true] at hdead
        exact absurd (isChange_of_alter hkind) (by simp [hslot hdead])
      simp only [Schema.applyEntry, hkind] at hd ⊢
      rcases s.applyAlter_cases hname with ⟨_, hadopt⟩ | ⟨i, existing, _, hvalue, hexisting, hcases⟩
      · rw [hadopt] at hd ⊢
        exact h.adopt hname hlive hd
      · rcases hcases with ⟨merged, hmerged, _, hsame, hmerge⟩ | ⟨_, hrefuse⟩
        · rw [hmerge]
          exact h.replace hvalue hexisting
            (by rw [Table.typeName_accumulate hmerged, hsame.name, hsame.isLive])
        · rw [hrefuse]
          exact h.replace hvalue hexisting rfl
    | drop =>
      obtain ⟨old, hold⟩ := Option.isSome_iff_exists.mp hnames.2
      simp only [Schema.applyEntry, hkind, applyDrop, hold, Option.bind_some]
      cases hi : s.tables.findLive? old with
      | none => exact h.appendPlaceholder (hdead hold)
      | some i =>
        obtain ⟨t, hget, hname, hlive⟩ := found_live hi
        have hdropped : (s.tables.get? i).bind Table.name = some old := by
          rw [← Entries.getElem?_values, hget, Option.bind_some, hname]
        simp only [hdropped]
        exact (h.leave hget hlive hname).appendPlaceholder (hdead hold)
    | rename =>
      obtain ⟨new, hnew⟩ := Option.isSome_iff_exists.mp hnames.1
      obtain ⟨old, hold⟩ := Option.isSome_iff_exists.mp hnames.2
      simp only [Schema.applyEntry, hkind, applyRename, hold, hnew] at hd ⊢
      have hrenamed : (s.renameLive old new).tables.Distinct := by
        rw [distinct_iff_typed] at hd ⊢
        rwa [typed_appendPlaceholder (hdead hold)] at hd
      exact (h.renameLive old new hrenamed).appendPlaceholder (hdead hold)

/-- Live tables have different names after every entry that is folded in. -/
def StaysApart (s : Schema) : List (Slot Table) → Prop
  | [] => True
  | slot :: rest => (s.applyEntry slot).1.tables.Distinct ∧
      ((s.applyEntry slot).2 = none → (s.applyEntry slot).1.StaysApart rest)

instance decidableStaysApart : (s : Schema) → (slots : List (Slot Table)) → Decidable (s.StaysApart slots)
  | _, [] => inferInstanceAs (Decidable True)
  | s, slot :: rest =>
    have := decidableStaysApart (s.applyEntry slot).1 rest
    inferInstanceAs (Decidable (_ ∧ _))

theorem Indexed.applyEntries (h : Indexed s) {slots : List (Slot Table)}
    (hslots : ∀ slot ∈ slots, Entry.isLive slot.value = false → slot.value.flags.isChange = false)
    (hapart : s.StaysApart slots) : Indexed (s.applyEntries slots).1 := by
  induction slots generalizing s with
  | nil => exact h
  | cons slot rest ih =>
    have hstep := h.applyEntry (hslots slot List.mem_cons_self) hapart.1
    have hrest := hapart.2
    rw [Schema.applyEntries]
    cases hentry : s.applyEntry slot with
    | mk s' fault =>
      rw [hentry] at hstep hrest
      cases fault with
      | none => exact ih hstep (fun slot hslot => hslots slot (List.mem_cons_of_mem _ hslot)) (hrest rfl)
      | some fault => exact hstep

theorem Indexed.prepared (h : Indexed s) : Indexed s.prepared := by
  unfold Schema.prepared
  split
  · exact h
  · have hvalues : s.collectForeigns.tables.values = s.tables.values.map Table.collectForeigns :=
      Entries.values_modifyAll _ _
    refine h.of_perm (.of_eq (typed_congr ?_)) (Entries.ordered_modifyAll _ _) rfl rfl
    rw [hvalues, List.map_map]
    rfl

/-- **A delta** leaves an index that agrees with the tables, whether it is folded in or not. -/
theorem Indexed.accumulate (h : Indexed s) (hdelta : Unmarked delta.tables.values)
    (hapart : s.checkStatic delta = .ok () → s.prepared.StaysApart delta.tables.slots) :
    Indexed (s.accumulate delta).1 := by
  cases hcheck : s.checkStatic delta with
  | error fault =>
    rw [Schema.accumulate, hcheck]
    exact h
  | ok =>
    have hslots : ∀ slot ∈ delta.tables.slots, Entry.isLive slot.value = false →
        slot.value.flags.isChange = false := fun slot hslot => hdelta slot.value (List.mem_map_of_mem hslot)
    have hfolded := h.prepared.applyEntries hslots (hapart hcheck)
    obtain ⟨version, accumulated, heq⟩ := accumulate_folded hcheck
    rw [heq]
    exact ⟨hfolded.ordered, hfolded.distinct, hfolded.agrees, hfolded.sorted⟩

/-! ### The other operations -/

theorem Indexed.applyRewrites (h : Indexed s) (rs : List Rewrite) : Indexed (s.applyRewrites rs).1 := by
  induction rs generalizing s with
  | nil => exact h
  | cons r rest ih =>
    rw [applyRewrites_cons]
    refine ih ?_
    obtain ⟨hrest, hordered⟩ := applyRewrites_rest s [r]
    have hvalues := (applyRewrite_spec s r).1
    have hfacet : ∀ t, facet (retarget t r) = facet t := by
      intro t
      have hsame := congrArg (fun t : Table => (Entry.isLive t, t.name)) (sameButKeys_retarget t r).rest
      obtain ⟨hlive, hname⟩ := Prod.mk.inj hsame
      exact Prod.ext hlive (Prod.ext (typeName_retarget t r) hname)
    have hindex := congrArg Schema.typeIndex hrest
    have hsorted := congrArg Schema.typeIndexSorted hrest
    refine h.of_perm (.of_eq (typed_congr ?_)) (hordered h.ordered) hindex hsorted
    rw [hvalues]
    exact Entries.map_modify hfacet _ _

theorem Indexed.clearChanges (h : Indexed s) (clear set : Flags) : Indexed (s.clearChanges clear set) := by
  have hlive := (s.committed_clearChanges clear set).live
  refine h.of_perm (.of_eq ?_) (Entries.ordered_modifyAll _ _) rfl rfl
  rw [typed, List.filter_eq_self.mpr hlive, values_clearChanges, List.map_map]
  exact List.map_congr_left fun t _ => Prod.ext (t.typeName_commit clear set) rfl

theorem Indexed.arrange (h : Indexed s) : Indexed s.arrange.2 := by
  refine h.of_perm (live_arrange_perm fun t _ _ u => ?_) (Entries.ordered_sort _) rfl rfl
  exact Prod.ext (s.typeName_arranged u t) (s.name_arranged u t)

/-- Index entries stand in lexicographic order. -/
theorem typeLe_iff (a b : String × String) : typeLe a b = true ↔ toLex a ≤ toLex b := by
  rw [Prod.Lex.le_iff, typeLe]
  by_cases h : a.1 = b.1
  · simp [h]
  · simp [h, le_iff_lt_or_eq]

theorem typeLe_isPreorder : IsPreorder typeLe where
  total a b := by
    rw [typeLe_iff, typeLe_iff]
    exact le_total _ _
  trans a b c := by
    rw [typeLe_iff, typeLe_iff, typeLe_iff]
    exact le_trans

/-- Sorting puts the index in order by type. -/
theorem Indexed.sortTypes (h : Indexed s) : Indexed s.sortTypes := by
  unfold Schema.sortTypes
  split
  · exact h
  · refine ⟨h.ordered, h.distinct, ⟨h.agrees.named, fun entry => ?_⟩, fun _ => ?_⟩
    · exact mem_stableSort.trans (h.agrees.mem entry)
    · refine (sorted_stableSort typeLe_isPreorder _).imp fun {a b} hab => ?_
      unfold typeLe at hab
      split at hab
      · next heq => exact le_of_eq (beq_iff_eq.mp heq)
      · exact of_decide_eq_true hab

/-! ### Histories -/

/-- What a call hands over as a static table has a name and stands for itself. -/
def Names (call : SchemaCall) : Prop :=
  ∀ t, call = .insertStatic t → t.name ≠ none ∧ Entry.isLive t = true

theorem facet_edited {t' : Table} (h : t.Edited t') : facet t' = facet t := by
  have htype := h.typeName
  obtain ⟨columns, offset, foreigns, rfl⟩ := h.shape
  exact Prod.ext rfl (Prod.ext htype rfl)

theorem registerType_untyped (h : t.typeName = "") : s.registerType t = s := by
  unfold registerType
  split
  · rw [if_pos (String.isEmpty_iff.mpr h)]
  · rfl

theorem Indexed.call (h : Indexed s) {call : SchemaCall} (hcall : Names call)
    (hd : (call.run s).tables.Distinct) : Indexed (call.run s) := by
  have hvalues := (values_run s call).1
  have hordered := ordered_run s call
  -- What column calls make of a table is a table of that name and type.
  have hcalled : ∀ (told : Table) (calls : List ColumnCall) {name : String}, told.name = some name →
      Entry.isLive told = true → (told.typeName, told.name) = ((told.callAll calls).typeName, some name) ∧
        (told.callAll calls).name = some name ∧ Entry.isLive (told.callAll calls) = true := by
    intro told calls name hname hlive
    obtain ⟨hlive', hrest⟩ := Prod.mk.inj (facet_edited (told.edited_callAll calls))
    obtain ⟨htype, hname'⟩ := Prod.mk.inj hrest
    exact ⟨by rw [htype, hname], hname'.trans hname, hlive'.trans hlive⟩
  cases call with
  | create name calls =>
    obtain ⟨htold, hname, hlive⟩ := hcalled (.plain name) calls rfl rfl
    exact h.enter _ htold hname hlive hvalues hordered hd rfl rfl
  | createTyped name typeName size calls =>
    obtain ⟨htold, hname, hlive⟩ := hcalled (.ofType name typeName size) calls rfl rfl
    exact h.enter _ htold hname hlive hvalues hordered hd rfl rfl
  | insertStatic t =>
    obtain ⟨hnamed, hlive⟩ := hcall t rfl
    obtain ⟨name, hname⟩ := Option.ne_none_iff_exists'.mp hnamed
    exact h.enter t (by rw [← hname]) hname hlive hvalues hordered hd rfl rfl
  | alter name calls =>
    obtain ⟨htold, hname, hlive⟩ := hcalled ((Table.plain name).insertFlags .change) calls rfl rfl
    have hregister : s.registerType ((Table.plain name).insertFlags .change) = s := registerType_untyped rfl
    exact h.enter _ htold hname hlive hvalues hordered hd (by rw [hregister]; rfl) (by rw [hregister]; rfl)
  | changeName change =>
    have hdead : Entry.isLive change.table = false := by cases change <;> rfl
    refine h.of_perm (.of_eq ?_) hordered (by cases change <;> rfl) (by cases change <;> rfl)
    rw [hvalues, typed_append, SchemaCall.entry, typed_placeholder hdead, List.append_nil]

/-- What a schema can come to while its live tables have different names all along: after every call,
and within a delta after every entry that is folded in. -/
inductive Registered : Schema → Prop
  | new (name : String) (version : UInt64) : Registered { name, version }
  | call {s : Schema} {call : SchemaCall} : Registered s → Names call → (call.run s).tables.Distinct →
      Registered (call.run s)
  | accumulate {s delta : Schema} : Registered s → Unmarked delta.tables.values →
      (s.checkStatic delta = .ok () → s.prepared.StaysApart delta.tables.slots) →
      Registered (s.accumulate delta).1
  | traceForeign {s : Schema} (pool : NodePool Fate) (capacity : UInt64) : Registered s →
      Registered (s.traceForeignWith pool capacity).1
  | clearChanges {s : Schema} (clear set : Flags) : Registered s → Registered (s.clearChanges clear set)
  | arrange {s : Schema} : Registered s → Registered s.arrange.2
  | findType {s : Schema} (typeName : String) : Registered s → Registered (s.findType typeName).2

/-- **Whatever came before**, the index agrees with the tables. -/
theorem Registered.indexed (h : Registered s) : Indexed s := by
  induction h with
  | new name version =>
    refine ⟨Entries.ordered_of_unsorted rfl, List.nodup_nil, ?_,
      fun h => absurd h Bool.false_ne_true⟩
    exact ⟨fun entry hentry => absurd hentry List.not_mem_nil,
      fun entry => iff_of_false List.not_mem_nil fun hentry => absurd hentry.2 List.not_mem_nil⟩
  | call _ hnames hd ih => exact ih.call hnames hd
  | accumulate _ hdelta hapart ih => exact ih.accumulate hdelta hapart
  | traceForeign pool capacity _ ih => exact ih.applyRewrites _
  | clearChanges clear set _ ih => exact ih.clearChanges clear set
  | arrange _ ih => exact ih.arrange
  | findType typeName _ ih => exact ih.sortTypes

/-- **An index in order** is looked up by the first place of a type. -/
theorem getElem?_typeStart {index : List (String × String)} (h : index.Pairwise fun a b => a.1 ≤ b.1)
    (typeName : String) :
    (index[typeStart index typeName]?.filter fun entry => entry.1 == typeName) =
      index.find? fun entry => entry.1 == typeName := by
  have hbelow : index.Pairwise fun a b => decide (b.1 < typeName) = true → decide (a.1 < typeName) = true :=
    h.imp fun {a b} hab hb => decide_eq_true (lt_of_le_of_lt hab (of_decide_eq_true hb))
  obtain ⟨hle, hbefore, hbehind⟩ := Entries.bisect_list (fun entry : String × String => decide (entry.1 < typeName))
    hbelow (fun i => by cases index[i]? <;> rfl) (typeStart.eq_1 index typeName).symm
  generalize typeStart index typeName = start at hle hbefore hbehind ⊢
  have hskip : (index.take start).find? (fun entry => entry.1 == typeName) = none := by
    refine List.find?_eq_none.mpr fun entry hentry => ?_
    have hlt := of_decide_eq_true (hbefore entry hentry)
    simpa using hlt.ne
  conv_rhs => rw [← List.take_append_drop start index, List.find?_append, hskip, Option.none_or]
  have hhead : index[start]? = (index.drop start).head? := by
    rw [List.head?_drop]
  have hrest := h.sublist (List.drop_sublist start index)
  rw [hhead]
  generalize index.drop start = rest at hbehind hrest
  cases rest with
  | nil => rfl
  | cons first rest =>
    by_cases hfirst : first.1 = typeName
    · simp [hfirst, Option.filter]
    · -- What stands behind a type above the one sought is above it, too.
      have hnone : rest.find? (fun entry => entry.1 == typeName) = none := by
        refine List.find?_eq_none.mpr fun entry hentry => ?_
        have hle := (List.pairwise_cons.mp hrest).1 entry hentry
        have hge := of_decide_eq_false (hbehind first List.mem_cons_self)
        have hlt := lt_of_le_of_ne (not_lt.mp hge) (Ne.symm hfirst)
        simpa using (lt_of_lt_of_le hlt hle).ne'
      simp [hfirst, Option.filter, hnone]

theorem tables_sortTypes (s : Schema) : s.sortTypes.tables = s.tables := by
  unfold sortTypes
  split <;> rfl

theorem typeIndexSorted_sortTypes (s : Schema) : s.sortTypes.typeIndexSorted = true := by
  unfold sortTypes
  split
  · assumption
  · rfl

/-- The look-up of a type, without halving. -/
theorem Indexed.findType_eq (h : Indexed s) (typeName : String) : (s.findType typeName).1 =
    (s.sortTypes.typeIndex.find? fun entry => entry.1 == typeName).bind fun entry => s.find? entry.2 := by
  have hfind : s.sortTypes.find? = s.find? := funext fun name => by rw [find?, find?, tables_sortTypes]
  rw [findType, ← getElem?_typeStart (h.sortTypes.sorted s.typeIndexSorted_sortTypes), ← hfind]

/-- **Types are found.** Whatever came before, while the live tables have different names: the look-up
of a type finds a live table of that type if there is one, and nothing otherwise. -/
theorem Registered.findType_spec (h : Registered s) (htype : typeName ≠ "") :
    ((∃ t ∈ s.tables.values, Entry.isLive t = true ∧ t.typeName = typeName) →
        ∃ t ∈ s.tables.values, Entry.isLive t = true ∧ t.typeName = typeName ∧
          (s.findType typeName).1 = some t) ∧
      ((¬ ∃ t ∈ s.tables.values, Entry.isLive t = true ∧ t.typeName = typeName) →
        (s.findType typeName).1 = none) := by
  have hagrees := h.indexed.sortTypes.agrees
  rw [tables_sortTypes] at hagrees
  rw [h.indexed.findType_eq]
  cases hfirst : s.sortTypes.typeIndex.find? fun entry => entry.1 == typeName with
  | none =>
    refine ⟨fun ⟨t, ht, hlive, htyped⟩ => ?_, fun _ => rfl⟩
    have hmem : (t.typeName, t.name) ∈ typed s.tables.values :=
      List.mem_map_of_mem (List.mem_filter.mpr ⟨ht, hlive⟩)
    obtain ⟨name, hname⟩ : ∃ name, t.name = some name := Option.ne_none_iff_exists'.mp (hagrees.named _ hmem)
    rw [htyped, hname] at hmem
    have hentry := (hagrees.mem (typeName, name)).mpr ⟨htype, hmem⟩
    exact absurd (beq_self_eq_true typeName) (List.find?_eq_none.mp hfirst _ hentry)
  | some entry =>
    -- The entry that stands first is as good as any: it is about a live table of that type.
    have hpass := List.find?_some hfirst
    obtain rfl : entry.1 = typeName := beq_iff_eq.mp hpass
    obtain ⟨_, hmem⟩ := (hagrees.mem entry).mp (List.mem_of_find?_eq_some hfirst)
    obtain ⟨t, ht, heq⟩ := List.mem_map.mp hmem
    obtain ⟨ht, hlive⟩ := List.mem_filter.mp ht
    obtain ⟨htyped, hname⟩ := Prod.mk.inj heq
    have hfound : s.find? entry.2 = some t :=
      (h.indexed.distinct.live?_iff h.indexed.ordered).mpr ⟨ht, hname, hlive⟩
    exact ⟨fun _ => ⟨t, ht, hlive, htyped, hfound⟩, fun hnone => absurd ⟨t, ht, hlive, htyped⟩ hnone⟩

/-- Users. -/
def members : Schema := (SchemaCall.createTyped "users" "User" 16 []).run { name := "app", version := 1 }

/-- Users and posts. -/
def catalog : Schema := (SchemaCall.createTyped "posts" "Post" 8 []).run members

/-- Users get another name, and notes take the name of the posts. -/
def relabelled : Schema :=
  SchemaCall.runAll { name := "app", version := 2 }
    [.changeName (.rename "users" "people"), .changeName (.drop "posts"), .createTyped "posts" "Note" 8 []]

/-- A look-up has put the index in order before. -/
def renewed : Schema := ((catalog.findType "Post").2.accumulate relabelled).1

/-- The users are found under their other name, and what has the name of the posts is not taken for them. -/
theorem findType_spec_renewed :
    renewed.Registered ∧ "User" ≠ "" ∧ "Post" ≠ "" ∧
      (∃ t ∈ renewed.tables.values, Entry.isLive t = true ∧ t.typeName = "User" ∧
        (renewed.findType "User").1 = some t) ∧
      (renewed.findType "Post").1 = none := by
  have hnames : ∀ name typeName size, Names (.createTyped name typeName size []) := fun _ _ _ _ h => nomatch h
  have hmembers : members.Registered := .call (.new "app" 1) (hnames _ _ _) (by decide +kernel)
  have hcatalog : catalog.Registered := .call hmembers (hnames _ _ _) (by decide +kernel)
  have hunmarked : Unmarked relabelled.tables.values :=
    (Reached.runAll (.new "app" 2) (by simp [SchemaCall.Ordinary, SchemaCall.Handing])).unmarked
  have hrenewed : renewed.Registered :=
    .accumulate (.findType "Post" hcatalog) hunmarked fun _ => by decide +kernel
  have huser : "User" ≠ "" := by decide
  have hpost : "Post" ≠ "" := by decide
  exact ⟨hrenewed, huser, hpost, (hrenewed.findType_spec huser).1 (by decide +kernel),
    (hrenewed.findType_spec hpost).2 (by decide +kernel)⟩

end Schema
end SchemaShift

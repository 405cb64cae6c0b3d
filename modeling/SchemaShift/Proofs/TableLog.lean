import SchemaShift.Schema.Commit
import SchemaShift.Proofs.Atomicity
import SchemaShift.Proofs.RenameTrail

/-! Logs of drops and renames.

`NameChange.replay` says what becomes of a name under a log, entry by entry.
Folding a valid log into a committed schema gives every table the name that the
replay gives it and drops the others (`Schema.accumulate_log`). A trace forgets
where in the log an edge stands; it finds what the replay finds as long as the
table takes no name that another one has left (`NameChange.traced_of_undisturbed`). -/
namespace SchemaShift

/-- The name, if it was not dropped. -/
def Fate.name? : Fate → Option String
  | .name new => some new
  | .dropped => none

/-- What becomes of what something became. -/
def Fate.bind : Fate → (String → Fate) → Fate
  | .name new, f => f new
  | .dropped, _ => .dropped

/-- The drop or the rename of a name. -/
inductive NameChange where
  | drop (old : String)
  | rename (old new : String)
  deriving DecidableEq, Repr

namespace NameChange

/-- The name that goes. -/
def old : NameChange → String
  | drop old => old
  | rename old _ => old

/-- The name that comes. -/
def new? : NameChange → Option String
  | drop _ => none
  | rename _ new => some new

/-- What becomes of the name that goes. -/
def target : NameChange → Fate
  | drop _ => .dropped
  | rename _ new => .name new

/-- What becomes of any name. -/
def fate (change : NameChange) (name : String) : Fate :=
  if name = change.old then change.target else .name name

/-- What the history of a log has for a change. -/
def edge (change : NameChange) : Fate × Fate := (.name change.old, change.target)

/-- The entry of a table log. -/
def table : NameChange → Table
  | drop old => .dropOf old
  | rename old new => .renameOf old new

/-- What becomes of a name under a log. -/
def replay : List NameChange → String → Fate
  | [], name => .name name
  | change :: rest, name => (change.fate name).bind (replay rest)

/-- What a trace of the history of a log says about a name. -/
def traced (log : List NameChange) (name : String) : Fate :=
  RenameGraph.greedyEnd (log.map edge) (.name name)

/-- In order, every change takes away a name that is there and brings one that is not. -/
def Valid : List String → List NameChange → Prop
  | _, [] => True
  | names, change :: rest => change.old ∈ names ∧ (∀ new ∈ change.new?, new ∉ names) ∧
    Valid (names.filterMap fun name => (change.fate name).name?) rest

instance decidableValid : (names : List String) → (log : List NameChange) → Decidable (Valid names log)
  | _, [] => inferInstanceAs (Decidable True)
  | names, change :: rest =>
    have := decidableValid (names.filterMap fun name => (change.fate name).name?) rest
    inferInstanceAs (Decidable (change.old ∈ names ∧ (∀ new ∈ change.new?, new ∉ names) ∧
      Valid (names.filterMap fun name => (change.fate name).name?) rest))

/-- A table never takes a name that another one has left: `left` are the names
that others have left by now. -/
def Undisturbed : List String → String → List NameChange → Prop
  | _, _, [] => True
  | left, name, change :: rest =>
    if name = change.old then
      ∀ new ∈ change.new?, new ∉ left ∧ Undisturbed left new rest
    else Undisturbed (change.old :: left) name rest

@[simp] theorem fate_old (change : NameChange) : change.fate change.old = change.target := if_pos rfl

@[simp] theorem fate_ne {change : NameChange} {name : String} (h : name ≠ change.old) :
    change.fate name = .name name := if_neg h

theorem change_drop (old : String) : Entry.change? (drop old).table = some .drop := rfl

theorem change_rename (old new : String) : Entry.change? (rename old new).table = some .rename := by
  have hname : Entry.name (rename old new).table = some new := rfl
  have hold : Entry.oldName (rename old new).table = some old := rfl
  have hflags : (Entry.flags (rename old new).table).isChange = false := by
    show Flags.pointer.isChange = false
    decide
  simp [Entry.change?, hname, hold, hflags]

theorem oldName_table (change : NameChange) : change.table.oldName = some change.old := by
  cases change <;> rfl

theorem edges_table (log : List NameChange) : RenameGraph.edges (log.map table) = log.map edge := by
  induction log with
  | nil => rfl
  | cons change rest ih =>
    rw [RenameGraph.edges] at ih ⊢
    rw [List.map_cons, List.map_cons, ← ih]
    cases change with
    | drop old => rfl
    | rename old new =>
      refine List.filterMap_cons_some ?_
      rw [RenameGraph.edge?, change_rename]
      rfl

/-- A name under a change is the one that comes or stays as it was. -/
theorem name?_fate {change : NameChange} {name name' : String}
    (h : (change.fate name).name? = some name') :
    (name = change.old ∧ change.new? = some name') ∨ (name ≠ change.old ∧ name' = name) := by
  unfold fate at h
  split at h
  · next heq =>
    refine .inl ⟨heq, ?_⟩
    cases change with
    | drop old => exact absurd h (by simp [target, Fate.name?])
    | rename old new => exact h
  · next hne => exact .inr ⟨hne, (Option.some.inj h).symm⟩

/-- Different names stay different. -/
theorem nodup_fates {names : List String} {change : NameChange} (h : names.Nodup)
    (hnew : ∀ new ∈ change.new?, new ∉ names) :
    (names.filterMap fun name => (change.fate name).name?).Nodup := by
  refine List.pairwise_filterMap.mpr (h.imp_of_mem fun {a b} ha hb hne => ?_)
  intro a' ha' b' hb'
  rcases name?_fate ha' with ⟨_, ha'⟩ | ⟨_, rfl⟩ <;> rcases name?_fate hb' with ⟨_, hb'⟩ | ⟨_, rfl⟩
  · simp_all
  · exact fun heq => hnew a' ha' (heq ▸ hb)
  · exact fun heq => hnew b' hb' (heq ▸ ha)
  · exact hne

end NameChange

/-! ### What the trace finds -/

namespace RenameGraph
open NameChange

theorem find?_left {left : List (Fate × Fate)} {names : List String} {name : String}
    (hleft : ∀ edge ∈ left, ∃ old ∈ names, edge.1 = .name old) (hname : name ∉ names) :
    left.find? (fun edge => edge.1 = .name name) = none := by
  rw [List.find?_eq_none]
  intro edge hedge heq
  obtain ⟨old, hold, hsource⟩ := hleft edge hedge
  rw [decide_eq_true_eq, hsource] at heq
  exact hname (Fate.name.inj heq ▸ hold)

/-- Edges that others have left behind are passed over. -/
theorem greedyEnd_append_eq_replay {left : List (Fate × Fate)} {names : List String} {name : String}
    {log : List NameChange} (hleft : ∀ edge ∈ left, ∃ old ∈ names, edge.1 = .name old)
    (hname : name ∉ names) (h : Undisturbed names name log) :
    greedyEnd (left ++ log.map edge) (.name name) = replay log name := by
  induction log generalizing left names name with
  | nil =>
    rw [List.map_nil, List.append_nil]
    exact greedyEnd_of_none (find?_left hleft hname)
  | cons change rest ih =>
    rw [Undisturbed] at h
    split at h
    · next hold =>
      subst hold
      have hfind : (left ++ (change :: rest).map edge).find? (fun edge => edge.1 = .name change.old) =
          some change.edge := by
        rw [List.find?_append, find?_left hleft hname, Option.none_or, List.map_cons,
          List.find?_cons_of_pos (by simp [edge])]
      have herase : (left ++ (change :: rest).map edge).eraseP (fun edge => edge.1 = .name change.old) =
          left ++ rest.map edge := by
        rw [List.eraseP_append_right _ fun edge hedge => by
          simpa using List.find?_eq_none.mp (find?_left hleft hname) edge hedge, List.map_cons,
          List.eraseP_cons_of_pos (by simp [edge])]
      rw [greedyEnd_of_some hfind, herase, replay, fate_old]
      cases change with
      | drop old => rfl
      | rename old new =>
        obtain ⟨hnew, hrest⟩ := h new rfl
        exact ih hleft hnew hrest
    · next hne =>
      have hsplit : left ++ (change :: rest).map edge = (left ++ [change.edge]) ++ rest.map edge := by simp
      rw [hsplit, replay, fate_ne hne]
      refine ih ?_ ?_ h
      · intro edge hedge
        rcases List.mem_append.mp hedge with hedge | hedge
        · obtain ⟨old, hold, hsource⟩ := hleft edge hedge
          exact ⟨old, List.mem_cons_of_mem _ hold, hsource⟩
        · exact ⟨change.old, List.mem_cons_self, congrArg Prod.fst (List.mem_singleton.mp hedge)⟩
      · simp [hne, hname]

end RenameGraph

/-- **A trace finds what a replay finds** for a table that takes no name which another one has left. -/
theorem NameChange.traced_of_undisturbed {log : List NameChange} {name : String}
    (h : Undisturbed [] name log) : traced log name = replay log name := by
  have hleft : ∀ edge ∈ ([] : List (Fate × Fate)), ∃ old ∈ ([] : List String), edge.1 = .name old := by
    simp
  exact RenameGraph.greedyEnd_append_eq_replay hleft List.not_mem_nil h

/-! ### What the tables become -/

namespace Schema
open NameChange

/-- The table under the name that is left to it, if any. -/
def carried (f : String → Fate) (t : Table) : Option Table :=
  match t.name with
  | none => some t
  | some name => (f name).name?.map fun new => named new t

/-- Nothing but the name of a table changes. -/
theorem carried_cases {f : String → Fate} {t t' : Table} (h : carried f t = some t') :
    ∃ name, t' = { t with name } ∧ t'.name = t.name.bind fun name => (f name).name? := by
  unfold carried at h
  split at h
  · next hname => exact ⟨t.name, (Option.some.inj h).symm, by rw [← Option.some.inj h, hname]; rfl⟩
  · next name hname =>
    obtain ⟨new, hnew, rfl⟩ := Option.map_eq_some_iff.mp h
    exact ⟨some new, rfl, by rw [hname, Option.bind_some, hnew]; rfl⟩

theorem carried_bind (f g : String → Fate) (t : Table) :
    (carried f t).bind (carried g) = carried (fun name => (f name).bind g) t := by
  cases hname : t.name with
  | none => simp [carried, hname]
  | some name => cases hf : f name <;> simp [carried, hname, hf, Fate.bind, Fate.name?, named]

theorem carried_name (t : Table) : carried .name t = some t := by
  cases hname : t.name with
  | none => simp [carried, hname]
  | some name =>
    have hsame : named name t = t := by rw [named, ← hname]
    simp [carried, hname, Fate.name?, hsame]

theorem carried_ne {change : NameChange} {t : Table} (h : t.name ≠ some change.old) :
    carried change.fate t = some t := by
  cases hname : t.name with
  | none => simp [carried, hname]
  | some name =>
    have hne : name ≠ change.old := fun heq => h (heq ▸ hname)
    have hsame : named name t = t := by rw [named, ← hname]
    simp [carried, hname, hne, Fate.name?, hsame]

/-- The names go where the tables go. -/
theorem names_carried (f : String → Fate) (tables : List Table) :
    (tables.filterMap (carried f)).filterMap Table.name =
      (tables.filterMap Table.name).filterMap fun name => (f name).name? := by
  rw [List.filterMap_filterMap, List.filterMap_filterMap]
  congr 1
  funext t
  cases hname : t.name with
  | none => simp [carried, hname]
  | some name => cases hf : f name <;> simp [carried, hname, hf, Fate.name?, named]

/-- Live tables of different names in front of the placeholders of a log. -/
structure Split (s : Schema) (base placed : List Table) : Prop where
  values : s.tables.values = base ++ placed
  offset : s.offset = base.length
  ordered : s.tables.Ordered
  live : ∀ t ∈ base, Entry.isLive t = true
  placeholder : ∀ t ∈ placed, Entry.isLive t = false
  nodup : (base.filterMap Table.name).Nodup

variable {s : Schema} {base placed : List Table}

/-- The table of a name is found among the live ones, with no other of that name. -/
theorem Split.find (h : Split s base placed) {name : String} (hname : name ∈ base.filterMap Table.name) :
    ∃ front t back, base = front ++ t :: back ∧ s.tables.findLive? name = some front.length ∧
      t.name = some name ∧ ∀ other ∈ front ++ back, other.name ≠ some name := by
  obtain ⟨t, ht, htname⟩ := List.mem_filterMap.mp hname
  have hsome : s.tables.findLive? name ≠ none := by
    intro hnone
    have hmiss := find?_of_findLive? hnone
    have hvalues : t ∈ s.tables.values := h.values ▸ List.mem_append_left placed ht
    exact not_standing_of_find? h.ordered hmiss t.isStatic
      (mem_standing.mpr ⟨t, hvalues, h.live t ht, htname, rfl⟩)
  obtain ⟨i, hi⟩ := Option.ne_none_iff_exists'.mp hsome
  obtain ⟨found, hget, hfoundName, hlive⟩ := found_live hi
  rw [h.values] at hget
  have hlt : i < base.length := by
    by_contra hge
    rw [List.getElem?_append_right (Nat.le_of_not_lt hge)] at hget
    exact absurd (h.placeholder found (List.mem_of_getElem? hget)) (by simp [hlive])
  rw [List.getElem?_append_left hlt, List.getElem?_eq_getElem hlt] at hget
  have hsplit : base = base.take i ++ found :: base.drop (i + 1) := by
    rw [← Option.some.inj hget, ← List.drop_eq_getElem_cons hlt, List.take_append_drop]
  refine ⟨base.take i, found, base.drop (i + 1), hsplit, ?_, hfoundName, fun other hother heq => ?_⟩
  · rw [hi, List.length_take, Nat.min_eq_left hlt.le]
  · have hnodup := h.nodup
    rw [hsplit, List.filterMap_append, List.filterMap_cons_some hfoundName, List.nodup_middle,
      List.nodup_cons, ← List.filterMap_append] at hnodup
    exact hnodup.1 (List.mem_filterMap.mpr ⟨other, hother, heq⟩)

theorem values_applyDrop {slot : Slot Table} {old : String} {i : Nat} (hold : slot.value.oldName = some old)
    (hi : s.tables.findLive? old = some i) :
    (s.applyDrop slot).tables.values = s.tables.values.eraseIdx i ++ [slot.value] ∧
      (s.applyDrop slot).offset = if i < s.offset then s.offset - 1 else s.offset := by
  simp only [applyDrop, hold, Option.bind_some, hi, values_appendSlot, values_takeTable]
  exact ⟨trivial, rfl⟩

theorem values_applyRename {slot : Slot Table} {old new : String} {i : Nat}
    (hold : slot.value.oldName = some old) (hnew : slot.value.name = some new)
    (hi : s.tables.findLive? old = some i) :
    (s.applyRename slot).tables.values = s.tables.values.modify i (named new) ++ [slot.value] ∧
      (s.applyRename slot).offset = s.offset := by
  simp only [applyRename, hold, hnew, renameLive, hi, values_appendSlot, Entries.values_modify]
  exact ⟨rfl, rfl⟩

theorem modify_middle {α : Type} (f : α → α) (front : List α) (a : α) (back : List α) :
    (front ++ a :: back).modify front.length f = front ++ f a :: back := by
  induction front with
  | nil => rfl
  | cons b front ih => simpa using ih

/-- A change reaches the table of the old name and no other. -/
theorem filterMap_carried {change : NameChange} {front back : List Table} (t : Table)
    (h : ∀ other ∈ front ++ back, other.name ≠ some change.old) :
    (front ++ t :: back).filterMap (carried change.fate) =
      front ++ (carried change.fate t).toList ++ back := by
  have hkeep : ∀ ts ⊆ front ++ back, ts.filterMap (carried change.fate) = ts := fun ts hts =>
    (List.filterMap_congr fun other hother => carried_ne (h other (hts hother))).trans
      List.filterMap_some
  rw [List.filterMap_append, List.filterMap_cons, hkeep front (List.subset_append_left _ _),
    hkeep back (List.subset_append_right _ _)]
  cases carried change.fate t <;> simp

/-- The tables after a change, with its entry behind them. -/
theorem Split.change (h : Split s base placed) {s' : Schema} {change : NameChange}
    (hnew : ∀ new ∈ change.new?, new ∉ base.filterMap Table.name) (hordered : s'.tables.Ordered)
    (hvalues : s'.tables.values = base.filterMap (carried change.fate) ++ (placed ++ [change.table]))
    (hoffset : s'.offset = (base.filterMap (carried change.fate)).length) :
    Split s' (base.filterMap (carried change.fate)) (placed ++ [change.table]) where
  values := hvalues
  offset := hoffset
  ordered := hordered
  live t' ht' := by
    obtain ⟨t, ht, hcarry⟩ := List.mem_filterMap.mp ht'
    obtain ⟨_, rfl, _⟩ := carried_cases hcarry
    exact h.live t ht
  placeholder t ht := by
    rcases List.mem_append.mp ht with ht | ht
    · exact h.placeholder t ht
    · obtain rfl := List.mem_singleton.mp ht
      exact not_isLive_of_oldName change.oldName_table
  nodup := by
    rw [names_carried]
    exact nodup_fates h.nodup hnew

/-- One change: the table of the old name goes or takes the new one. -/
theorem Split.step (h : Split s base placed) {slot : Slot Table} {change : NameChange}
    (hslot : slot.value = change.table) (hold : change.old ∈ base.filterMap Table.name)
    (hnew : ∀ new ∈ change.new?, new ∉ base.filterMap Table.name) :
    (s.applyEntry slot).2 = none ∧ Split (s.applyEntry slot).1
      (base.filterMap (carried change.fate)) (placed ++ [change.table]) := by
  obtain ⟨front, t, back, hbase, hfind, hname, hothers⟩ := h.find hold
  have hordered := ordered_applyEntry h.ordered slot
  have hcarried := filterMap_carried t hothers
  rw [← hbase] at hcarried
  cases change with
  | drop old =>
    have hc : Entry.change? slot.value = some .drop := hslot ▸ change_drop old
    have holdName : slot.value.oldName = some old := congrArg Table.oldName hslot
    have hentry : s.applyEntry slot = (s.applyDrop slot, none) := by simp only [applyEntry, hc]
    obtain ⟨hvalues, hoffset⟩ := values_applyDrop holdName hfind
    have hgone : carried (NameChange.drop old).fate t = none := by
      rw [carried, hname]
      simp [target, Fate.name?]
    rw [hentry] at hordered ⊢
    refine ⟨rfl, h.change hnew hordered ?_ ?_⟩
    · rw [hvalues, h.values, hcarried, hgone, hbase, hslot, List.append_assoc, List.cons_append,
        List.eraseIdx_append_of_length_le le_rfl, Nat.sub_self, List.eraseIdx_cons_zero]
      simp
    · rw [hoffset, h.offset, hcarried, hgone, hbase]
      simp
  | rename old new =>
    have hc : Entry.change? slot.value = some .rename := hslot ▸ change_rename old new
    have holdName : slot.value.oldName = some old := congrArg Table.oldName hslot
    have hnewName : slot.value.name = some new := congrArg Table.name hslot
    have hentry : s.applyEntry slot = (s.applyRename slot, none) := by simp only [applyEntry, hc]
    obtain ⟨hvalues, hoffset⟩ := values_applyRename holdName hnewName hfind
    have hmoved : carried (NameChange.rename old new).fate t = some (named new t) := by
      rw [carried, hname]
      simp [target, Fate.name?]
    rw [hentry] at hordered ⊢
    refine ⟨rfl, h.change hnew hordered ?_ ?_⟩
    · rw [hvalues, h.values, hcarried, hmoved, hbase, hslot, List.append_assoc, List.cons_append,
        modify_middle]
      simp
    · rw [hoffset, h.offset, hcarried, hmoved, hbase]
      simp

/-- **A run of changes** gives every table the name that the replay of the log gives it. -/
theorem Split.run (h : Split s base placed) {slots : List (Slot Table)} {log : List NameChange}
    (hslots : slots.map Slot.value = log.map NameChange.table)
    (hvalid : Valid (base.filterMap Table.name) log) :
    (s.applyEntries slots).2 = none ∧ Split (s.applyEntries slots).1
      (base.filterMap (carried (replay log))) (placed ++ log.map NameChange.table) := by
  induction log generalizing s base placed slots with
  | nil =>
    obtain rfl : slots = [] := List.map_eq_nil_iff.mp hslots
    have hsame : base.filterMap (carried (replay [])) = base :=
      (List.filterMap_congr fun t _ => carried_name t).trans List.filterMap_some
    rw [hsame, List.map_nil, List.append_nil]
    exact ⟨rfl, h⟩
  | cons change rest ih =>
    cases slots with
    | nil => simp at hslots
    | cons slot slots =>
      rw [List.map_cons, List.map_cons, List.cons.injEq] at hslots
      obtain ⟨hold, hnew, hrest⟩ := hvalid
      obtain ⟨hnone, hsplit⟩ := h.step hslots.1 hold hnew
      rw [← names_carried] at hrest
      obtain ⟨hok, hdone⟩ := ih hsplit hslots.2 hrest
      have hcompose : (base.filterMap (carried change.fate)).filterMap (carried (replay rest)) =
          base.filterMap (carried (replay (change :: rest))) := by
        rw [List.filterMap_filterMap]
        exact congrArg (List.filterMap · base) (funext fun t => carried_bind _ _ t)
      rw [hcompose, List.append_assoc, List.singleton_append, ← List.map_cons] at hdone
      have hentry : s.applyEntries (slot :: slots) = (s.applyEntry slot).1.applyEntries slots := by
        rw [applyEntries]
        split
        · next s' heq => rw [heq]
        · next s' fault heq => simp [heq] at hnone
      rw [hentry]
      exact ⟨hok, hdone⟩

/-! ### Committed schemas -/

/-- No change is pending, neither of the tables nor of their columns. -/
structure Committed (s : Schema) : Prop where
  live : ∀ t ∈ s.tables.values, Entry.isLive t = true
  offset : s.offset = s.tables.values.length
  ordered : s.tables.Ordered
  tables : ∀ t ∈ s.tables.values, t.offset = t.entries.values.length ∧ t.collectForeigns = t

/-- What is committed are the live tables, in order. -/
theorem values_clearChanges (s : Schema) (clear set : Flags) : (s.clearChanges clear set).tables.values =
    (s.tables.values.filter Entry.isLive).map fun t => t.commit clear set := by
  have hkept : s.tables.removePlaceholders.values = s.tables.values.filter Entry.isLive := by
    rw [Entries.values, Entries.values, List.filter_map]
    rfl
  rw [← hkept]
  exact Entries.values_modifyAll _ _

theorem committed_clearChanges (s : Schema) (clear set : Flags) :
    (s.clearChanges clear set).Committed := by
  have hvalues := s.values_clearChanges clear set
  refine ⟨fun t ht => ?_, ?_, Entries.ordered_modifyAll _ _, fun t ht => ?_⟩
  · rw [hvalues] at ht
    obtain ⟨t', ht', rfl⟩ := List.mem_map.mp ht
    exact (List.mem_filter.mp ht').2
  · simp [clearChanges, Entries.length, Entries.values, Entries.modifyAll]
  · rw [hvalues] at ht
    obtain ⟨t', _, rfl⟩ := List.mem_map.mp ht
    refine ⟨?_, rfl⟩
    simp [Table.commit, Table.collectForeigns, Table.entries, Entries.length, Entries.values]

/-- Nothing is left to collect. -/
theorem Committed.values_prepared (h : s.Committed) :
    s.prepared.tables.values = s.tables.values ∧ s.prepared.offset = s.offset := by
  unfold prepared
  split
  · exact ⟨rfl, rfl⟩
  · refine ⟨?_, rfl⟩
    rw [collectForeigns, Entries.values_modifyAll]
    exact (List.map_congr_left fun t ht => (h.tables t ht).2).trans (List.map_id _)

/-- The replay of names has nothing against drops and renames. -/
theorem step_changes_ok (p : Projection) (log : List NameChange) :
    ∃ p', (log.map NameChange.table).foldlM Projection.step p = .ok p' := by
  induction log generalizing p with
  | nil => exact ⟨p, rfl⟩
  | cons change rest ih =>
    obtain ⟨p', hstep⟩ : ∃ p', p.step change.table = .ok p' := by
      cases change with
      | drop old => exact ⟨_, Projection.step_drop p (change_drop old) rfl⟩
      | rename old new =>
        cases hb : p.lookup old with
        | none => exact ⟨_, Projection.step_rename_missing p (change_rename old new) rfl rfl hb⟩
        | some b => exact ⟨_, Projection.step_rename p (change_rename old new) rfl rfl hb⟩
    rw [List.map_cons, List.foldlM_cons, hstep]
    exact ih p'

/-- **Folding a valid log into a committed schema**: the tables stay in order, each under the name
that the replay gives it or gone, and the log stands behind them. -/
theorem accumulate_log {delta : Schema} {log : List NameChange} (h : s.Committed)
    (hnodup : (s.tables.values.filterMap Table.name).Nodup)
    (hdelta : delta.tables.values = log.map NameChange.table)
    (hvalid : Valid (s.tables.values.filterMap Table.name) log) :
    (s.accumulate delta).2 = none ∧ Split (s.accumulate delta).1
      (s.tables.values.filterMap (carried (replay log))) (log.map NameChange.table) := by
  obtain ⟨hvalues, hoffset⟩ := h.values_prepared
  have hcheck : s.checkStatic delta = .ok () := by
    obtain ⟨p, hp⟩ := step_changes_ok (Projection.ofTables s.tables.values) log
    rw [checkStatic, hdelta, hp]
    rfl
  have hsplit : Split s.prepared s.tables.values [] :=
    ⟨by rw [hvalues, List.append_nil], hoffset.trans h.offset, ordered_prepared h.ordered, h.live,
      by simp, hnodup⟩
  have hslots : delta.tables.slots.map Slot.value = log.map NameChange.table := hdelta
  obtain ⟨hnone, hdone⟩ := hsplit.run hslots hvalid
  rw [accumulate_of_check_ok hcheck]
  split
  · next s' heq =>
    rw [heq, List.nil_append] at hdone
    exact ⟨rfl, hdone.values, hdone.offset, hdone.ordered, hdone.live, hdone.placeholder, hdone.nodup⟩
  · next s' fault heq =>
    rw [heq] at hnone
    exact absurd hnone (by simp)

end Schema
end SchemaShift

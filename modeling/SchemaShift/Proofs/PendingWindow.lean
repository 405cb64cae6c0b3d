import SchemaShift.Proofs.SchemaCalls

/-! The committed part and the pending log.

A list of entries and the number in front of it say what is committed and what is
pending, for the tables of a schema and for the columns of a table alike. Every
operation keeps the number at the right place: no placeholder stands among the
committed entries (`Entries.Window`). What stands where is told by a ledger, kept
from names alone: the committed tables that no folded entry took since, and the
drops and renames that came since (`Schema.Reached`). In everything that calls,
deltas, traces and commits lead to, the list says what the ledger says
(`Schema.Reached.windows`). -/
namespace SchemaShift

/-! ### Lists in two parts -/

namespace Entries

variable {ε : Type} [Entry ε] {es : Entries ε} {offset : Nat}

/-- The first `offset` entries are there, and no placeholder is among them. -/
structure Window (es : Entries ε) (offset : Nat) : Prop where
  le : offset ≤ es.values.length
  live : ∀ e ∈ es.values.take offset, Entry.isLive e = true

/-- The part in front loses an element only if it had it. -/
theorem take_eraseIdx {α : Type} {l : List α} (h : offset ≤ l.length) (i : Nat) :
    (l.eraseIdx i).take (if i < offset then offset - 1 else offset) = (l.take offset).eraseIdx i := by
  have hlength : (l.take offset).length = offset := by rw [List.length_take, Nat.min_eq_left h]
  conv_lhs => rw [← List.take_append_drop offset l]
  split
  · next hlt =>
    rw [List.eraseIdx_append_of_lt_length (hlength.symm ▸ hlt)]
    have herased : ((l.take offset).eraseIdx i).length = offset - 1 := by
      rw [List.length_eraseIdx_of_lt (hlength.symm ▸ hlt), hlength]
    exact List.take_left' herased
  · next hge =>
    have hle : (l.take offset).length ≤ i := hlength.symm ▸ Nat.le_of_not_lt hge
    rw [List.eraseIdx_append_of_length_le hle, List.eraseIdx_of_length_le hle]
    exact List.take_left' hlength

theorem Window.insert (h : es.Window offset) (slot : Slot ε) : (es.insert slot).Window offset where
  le := by
    rw [values_insert, List.length_append]
    exact h.le.trans (Nat.le_add_right _ _)
  live := by
    rw [values_insert, List.take_append_of_le_length h.le]
    exact h.live

theorem Window.steal (h : es.Window offset) (i : Nat) :
    (es.steal i 1).2.Window (if i < offset then offset - 1 else offset) where
  le := by
    have hle := h.le
    rw [values_steal, List.length_eraseIdx]
    split <;> split <;> omega
  live := by
    rw [values_steal, take_eraseIdx h.le]
    exact fun e he => h.live e (List.mem_of_mem_eraseIdx he)

theorem Window.modify (h : es.Window offset) (i : Nat) {f : ε → ε}
    (hf : ∀ e, Entry.isLive (f e) = Entry.isLive e) : (es.modify i f).Window offset where
  le := by
    rw [values_modify, List.length_modify]
    exact h.le
  live := by
    rw [values_modify, List.take_modify]
    intro e he
    rcases mem_modify he with he | ⟨e', he', rfl⟩
    · exact h.live e he
    · exact (hf e').trans (h.live e' he')

/-- Which entries are placeholders is all that counts. -/
theorem Window.congr {es' : Entries ε} (h : es.Window offset)
    (hsame : es'.values.map Entry.isLive = es.values.map Entry.isLive) : es'.Window offset where
  le := by
    have hlength := congrArg List.length hsame
    rw [List.length_map, List.length_map] at hlength
    exact hlength.symm ▸ h.le
  live := by
    intro e he
    have hmem : Entry.isLive e ∈ (es'.values.take offset).map Entry.isLive := List.mem_map_of_mem he
    rw [List.map_take, hsame, ← List.map_take] at hmem
    obtain ⟨e', he', heq⟩ := List.mem_map.mp hmem
    exact heq.symm.trans (h.live e' he')

/-- Where everything is live the whole list can be committed. -/
theorem window_length (h : ∀ e ∈ es.values, Entry.isLive e = true) : es.Window es.values.length :=
  ⟨le_rfl, fun e he => h e (List.mem_of_mem_take he)⟩

end Entries

/-! ### The columns of a table -/

namespace Table
open ColumnCall

variable {t t' : Table} {columns : Entries Column}

/-- Columns of its own stand in two parts. -/
def Windowed (t : Table) : Prop := ∀ columns, t.columns = .owned columns → columns.Window t.offset

theorem windowed_owned (hcolumns : t.columns = .owned columns) (h : columns.Window t.offset) : t.Windowed := by
  intro columns' hcolumns'
  rw [hcolumns] at hcolumns'
  exact Slot.owned.inj hcolumns' ▸ h

theorem windowed_shared (hcolumns : t.columns = .shared columns) : t.Windowed := by
  intro columns' hcolumns'
  rw [hcolumns] at hcolumns'
  exact absurd hcolumns' (by simp)

/-- A table without columns of its own in front of the log. -/
theorem windowed_new (hoffset : t.offset = 0) : t.Windowed := by
  intro columns _
  rw [hoffset]
  exact ⟨Nat.zero_le _, by simp⟩

/-- **Every edit keeps the number at the right place.** -/
theorem Edited.windowed (h : Edited t t') (ht : t.Windowed) : t'.Windowed := by
  induction h with
  | refl => exact ht
  | foreigns foreigns _ ih => exact ih
  | append slot _ hcolumns ih =>
    refine windowed_owned rfl ?_
    rw [entries, hcolumns]
    exact (ih _ hcolumns).insert slot
  | take i _ hcolumns ih => exact windowed_owned rfl ((ih _ hcolumns).steal i)
  | rename i new _ hcolumns ih => exact windowed_owned rfl ((ih _ hcolumns).modify i fun _ => rfl)

theorem windowed_accumulate {delta : Table} (ht : t.Windowed) (h : t.accumulate delta = .ok t') : t'.Windowed := by
  obtain ⟨columns, hcolumns, h⟩ := bind_ok h
  obtain rfl := Except.ok.inj h
  have howned := owned_of_ownedColumns hcolumns
  split
  · have hmarked : (t.insertFlags .change).columns = .owned columns := howned
    exact (edited_foldl hmarked _).windowed ht
  · exact (edited_foldl howned _).windowed ht

theorem windowed_commit (t : Table) (clear set : Flags) : (t.commit clear set).Windowed := by
  cases hcolumns : t.columns with
  | shared columns =>
    have hkept : (t.commit clear set).columns = .shared columns := by
      rw [commit, hcolumns]
      rfl
    exact windowed_shared hkept
  | owned columns =>
    have hsettled := commit_refilled (.refl hcolumns) clear set
    rw [hsettled]
    have hlength : (settle columns).length = (settle columns).values.length := by
      simp [Entries.length, Entries.values]
    refine windowed_owned rfl ?_
    show (settle columns).Window (settle columns).length
    rw [hlength]
    refine Entries.window_length fun c hc => ?_
    obtain ⟨slot, hslot, rfl⟩ := List.mem_map.mp hc
    obtain ⟨slot', hslot', rfl⟩ := List.mem_map.mp hslot
    have hlive := (List.mem_filter.mp hslot').2
    cases slot' <;> exact hlive

/-- Keys say nothing of where a column stands. -/
theorem windowed_of_same (h : Schema.SameButKeys t t') (ht : t.Windowed) : t'.Windowed := by
  intro columns' hcolumns'
  cases hcolumns : t.columns with
  | shared columns =>
    have hstatic := h.isStatic
    simp [isStatic, hcolumns, hcolumns', Slot.isOwned] at hstatic
  | owned columns =>
    have hrest := congrArg offset h.rest
    have hoffset : t'.offset = t.offset := hrest
    have hvalues := h.columns
    rw [entries, entries, hcolumns, hcolumns'] at hvalues
    have hlive : ∀ cs : List Column, cs.map Entry.isLive = (cs.map Column.removeReference).map Entry.isLive := by
      intro cs
      rw [List.map_map]
      rfl
    have hsame : columns'.values.map Entry.isLive = columns.values.map Entry.isLive := by
      rw [hlive, hlive columns.values]
      exact congrArg (List.map Entry.isLive) hvalues
    rw [hoffset]
    exact (ht columns hcolumns).congr hsame

theorem windowed_traced (s : Schema) (ht : t.Windowed) : (s.traced t).Windowed := by
  unfold Schema.traced
  split
  · exact windowed_of_same (Schema.sameButKeys_foldl t _) ht
  · exact ht

end Table

/-! ### The ledger of a schema -/

namespace Schema

/-- What is known of a schema without its list: the tables of the last commit that no change took
since, under the names that they have now, and the drops and renames that came since. -/
structure Ledger where
  committed : List Table := []
  log : List NameChange := []

/-- The table has that name. -/
def isCalled (name : String) (t : Table) : Bool := t.name == some name

/-- The list with the first element that passes changed. -/
def modifyFirst {α : Type} (p : α → Bool) (f : α → α) (l : List α) : List α :=
  l.replaceF fun a => if p a then some (f a) else none

/-- What is left of committed tables once an entry of a delta is folded in: a new body takes its
table out of them, and so does a drop. -/
def outlive (committed : List Table) (entry : Table) : List Table :=
  match Entry.change? entry, entry.oldName, entry.name with
  | some .alter, _, some name => committed.eraseP (isCalled name)
  | some .drop, some old, _ => committed.eraseP (isCalled old)
  | some .rename, some old, some new => modifyFirst (isCalled old) (named new) committed
  | _, _, _ => committed

/-- What calls, deltas, traces and commits lead to, with the ledger of it. To record a change carries
nothing out, so it leaves the committed tables alone. -/
inductive Reached : Schema → Ledger → Prop
  | new (name : String) (version : UInt64) : Reached { name, version } {}
  | call {s : Schema} {l : Ledger} (call : SchemaCall) : Reached s l → call.Ordinary →
      Reached (call.run s) { l with log := l.log ++ call.change?.toList }
  | accumulate {s delta : Schema} {l changes : Ledger} : Reached s l → Reached delta changes →
      (s.accumulate delta).2 = none →
      Reached (s.accumulate delta).1
        ⟨delta.tables.values.foldl outlive l.committed, l.log ++ changes.log⟩
  | traceForeign {s : Schema} {l : Ledger} (pool : NodePool Fate) (capacity : UInt64) : Reached s l →
      pool.Valid → Reached (s.traceForeignWith pool capacity).1 l
  | clearChanges {s : Schema} {l : Ledger} (clear set : Flags) : Reached s l →
      Reached (s.clearChanges clear set)
        ⟨(s.tables.values.filter Entry.isLive).map fun t => t.commit clear set, []⟩

/-- A committed table, as it stands now: the same one, but for its keys. -/
structure Stands (t t' : Table) : Prop where
  rest : { t' with columns := t.columns, foreigns := t.foreigns } = t
  columns : t'.entries.values.map Column.removeReference = t.entries.values.map Column.removeReference
  live : Entry.isLive t' = true

/-- The list of tables says what the ledger says. -/
structure Told (s : Schema) (l : Ledger) : Prop where
  window : s.tables.Window s.offset
  committed : List.Forall₂ Stands l.committed (s.tables.values.take s.offset)
  log : s.tables.values.filter Entry.isPlaceholder = l.log.map NameChange.table
  ordered : s.tables.Ordered
  columns : ∀ t ∈ s.tables.values, t.Windowed

variable {s s' delta : Schema} {l changes : Ledger} {t t' : Table}

theorem Told.append (h : Told s l) {new : List NameChange}
    (hvalues : s'.tables.values = s.tables.values ++ [t]) (hoffset : s'.offset = s.offset)
    (hordered : s'.tables.Ordered) (hnew : [t].filter Entry.isPlaceholder = new.map NameChange.table)
    (ht : t.Windowed) : Told s' { l with log := l.log ++ new } where
  window := by
    refine ⟨?_, ?_⟩
    · rw [hvalues, hoffset, List.length_append]
      exact h.window.le.trans (Nat.le_add_right _ _)
    · rw [hvalues, hoffset, List.take_append_of_le_length h.window.le]
      exact h.window.live
  committed := by
    rw [hvalues, hoffset, List.take_append_of_le_length h.window.le]
    exact h.committed
  log := by rw [hvalues, List.filter_append, List.map_append, h.log, hnew]
  ordered := hordered
  columns := by
    intro t' ht'
    rw [hvalues, List.mem_append, List.mem_singleton] at ht'
    rcases ht' with ht' | rfl
    · exact h.columns t' ht'
    · exact ht

theorem Stands.refl (h : Entry.isLive t = true) : Stands t t := ⟨rfl, rfl, h⟩

theorem Stands.trans {t'' : Table} (h : Stands t t') (h' : Stands t' t'') : Stands t t'' where
  rest := by
    have hfirst := h.rest
    rw [← h'.rest] at hfirst
    exact hfirst
  columns := h'.columns.trans h.columns
  live := h'.live

/-- A placeholder in the list is an entry of the log. -/
theorem Told.placeholder (h : Told s l) (ht : t ∈ s.tables.values) (hplace : Entry.isPlaceholder t = true) :
    ∃ change ∈ l.log, change.table = t := by
  have hmem : t ∈ s.tables.values.filter Entry.isPlaceholder := List.mem_filter.mpr ⟨ht, hplace⟩
  rw [h.log] at hmem
  exact List.mem_map.mp hmem

/-- What happens to every live table for itself. -/
theorem Told.map (h : Told s l) {f : Table → Table} (hvalues : s'.tables.values = s.tables.values.map f)
    (hoffset : s'.offset = s.offset) (hordered : s'.tables.Ordered)
    (hstands : ∀ t, Entry.isLive t = true → Stands t (f t))
    (hchange : ∀ change : NameChange, f change.table = change.table)
    (ht : ∀ t : Table, t.Windowed → (f t).Windowed) : Told s' l := by
  have hplace : ∀ t ∈ s.tables.values, Entry.isPlaceholder t = true → f t = t := by
    intro t ht hplace
    obtain ⟨change, _, rfl⟩ := h.placeholder ht hplace
    exact hchange change
  have hlive : ∀ t ∈ s.tables.values, Entry.isLive (f t) = Entry.isLive t := by
    intro t ht
    cases hl : Entry.isLive t with
    | true => exact (hstands t hl).live
    | false => rw [hplace t ht (by simpa [Entry.isLive] using hl), hl]
  have hpending : ∀ t ∈ s.tables.values, (Entry.isPlaceholder ∘ f) t = Entry.isPlaceholder t := fun t ht =>
    Bool.not_inj (hlive t ht)
  refine ⟨?window, ?committed, ?log, hordered, ?columns⟩
  case window =>
    rw [hoffset]
    refine h.window.congr ?_
    rw [hvalues, List.map_map]
    exact List.map_congr_left hlive
  case committed =>
    rw [hvalues, hoffset, ← List.map_take, List.forall₂_map_right_iff]
    exact h.committed.imp fun _ t hstood => hstood.trans (hstands t hstood.live)
  case log =>
    rw [hvalues, List.filter_map, List.filter_congr hpending, ← h.log]
    refine (List.map_congr_left fun t ht => ?_).trans (List.map_id _)
    exact hplace t (List.mem_of_mem_filter ht) (List.mem_filter.mp ht).2
  case columns =>
    intro t' ht'
    rw [hvalues] at ht'
    obtain ⟨t, htmem, rfl⟩ := List.mem_map.mp ht'
    exact ht t (h.columns t htmem)

/-! ### Where a name leads -/

/-- A look-up goes through the committed tables first. -/
theorem eraseP_take {α : Type} {p : α → Bool} {l : List α} {i : Nat} (hi : l.findIdx? p = some i) (n : Nat) :
    (l.take n).eraseP p = (l.take n).eraseIdx i := by
  induction l generalizing i n with
  | nil => simp at hi
  | cons a rest ih =>
    cases n with
    | zero => rfl
    | succ n =>
      rw [List.take_succ_cons]
      rw [List.findIdx?_cons] at hi
      by_cases ha : p a = true
      · rw [if_pos ha] at hi
        obtain rfl := Option.some.inj hi
        rw [List.eraseP_cons_of_pos ha, List.eraseIdx_cons_zero]
      · rw [if_neg ha] at hi
        obtain ⟨j, hj, rfl⟩ := Option.map_eq_some_iff.mp hi
        rw [List.eraseP_cons_of_neg ha, List.eraseIdx_cons_succ, ih hj]

section First
variable {α : Type} {p : α → Bool} {f : α → α} {a : α}

theorem modifyFirst_cons_of_pos (ha : p a = true) (l : List α) : modifyFirst p f (a :: l) = f a :: l :=
  List.replaceF_cons_of_some _ (if_pos ha)

theorem modifyFirst_cons_of_neg (ha : ¬ p a = true) (l : List α) :
    modifyFirst p f (a :: l) = a :: modifyFirst p f l :=
  List.replaceF_cons_of_none _ (if_neg ha)

theorem modifyFirst_of_forall_not {l : List α} (h : ∀ a ∈ l, ¬ p a = true) : modifyFirst p f l = l :=
  List.replaceF_of_forall_none fun a ha => if_neg (h a ha)

theorem modifyFirst_take {l : List α} {i : Nat} (hi : l.findIdx? p = some i) (n : Nat) :
    modifyFirst p f (l.take n) = (l.take n).modify i f := by
  induction l generalizing i n with
  | nil => simp at hi
  | cons a rest ih =>
    cases n with
    | zero => simp [modifyFirst]
    | succ n =>
      rw [List.take_succ_cons]
      rw [List.findIdx?_cons] at hi
      by_cases ha : p a = true
      · rw [if_pos ha] at hi
        obtain rfl := Option.some.inj hi
        rw [modifyFirst_cons_of_pos ha, List.modify_zero_cons]
      · rw [if_neg ha] at hi
        obtain ⟨j, hj, rfl⟩ := Option.map_eq_some_iff.mp hi
        rw [modifyFirst_cons_of_neg ha, List.modify_succ_cons, ih hj]

end First

theorem forall₂_eraseP {α β : Type} {R : α → β → Prop} {p : α → Bool} {q : β → Bool}
    (hpq : ∀ a b, R a b → p a = q b) {as : List α} {bs : List β} (h : List.Forall₂ R as bs) :
    List.Forall₂ R (as.eraseP p) (bs.eraseP q) := by
  induction h with
  | nil => exact .nil
  | @cons a b as bs hab hrest ih =>
    by_cases ha : p a = true
    · rw [List.eraseP_cons_of_pos ha, List.eraseP_cons_of_pos (hpq a b hab ▸ ha)]
      exact hrest
    · rw [List.eraseP_cons_of_neg ha, List.eraseP_cons_of_neg (hpq a b hab ▸ ha)]
      exact .cons hab ih

theorem forall₂_modifyFirst {α β : Type} {R : α → β → Prop} {p : α → Bool} {q : β → Bool} {f : α → α}
    {g : β → β} (hpq : ∀ a b, R a b → p a = q b) (hfg : ∀ a b, R a b → R (f a) (g b)) {as : List α}
    {bs : List β} (h : List.Forall₂ R as bs) : List.Forall₂ R (modifyFirst p f as) (modifyFirst q g bs) := by
  induction h with
  | nil => exact .nil
  | @cons a b as bs hab hrest ih =>
    by_cases ha : p a = true
    · rw [modifyFirst_cons_of_pos ha, modifyFirst_cons_of_pos (hpq a b hab ▸ ha)]
      exact .cons (hfg a b hab) hrest
    · rw [modifyFirst_cons_of_neg ha, modifyFirst_cons_of_neg (hpq a b hab ▸ ha)]
      exact .cons hab ih

theorem exists_stands {committed tables : List Table} (h : List.Forall₂ Stands committed tables)
    (ht : t ∈ committed) : ∃ t' ∈ tables, Stands t t' := by
  induction h with
  | nil => exact absurd ht List.not_mem_nil
  | @cons a b _ _ hhead _ ih =>
    rcases List.mem_cons.mp ht with rfl | ht
    · exact ⟨b, List.mem_cons_self, hhead⟩
    · obtain ⟨t', hmem, hstands⟩ := ih ht
      exact ⟨t', List.mem_cons_of_mem b hmem, hstands⟩

/-- Nothing is told by an element that does not pass. -/
theorem filter_eraseIdx {α : Type} {p : α → Bool} {l : List α} {i : Nat} {a : α} (hi : l[i]? = some a)
    (ha : p a = false) : (l.eraseIdx i).filter p = l.filter p := by
  obtain ⟨hlt, rfl⟩ := List.getElem?_eq_some_iff.mp hi
  conv_rhs => rw [← List.take_append_drop i l, List.drop_eq_getElem_cons hlt]
  rw [List.eraseIdx_eq_take_drop_succ, List.filter_append, List.filter_append,
    List.filter_cons_of_neg (by simp [ha])]

theorem filter_modify {α : Type} {p : α → Bool} {f : α → α} {l : List α} {i : Nat} {a : α} (hi : l[i]? = some a)
    (ha : p a = false) (hf : p (f a) = false) : (l.modify i f).filter p = l.filter p := by
  obtain ⟨hlt, rfl⟩ := List.getElem?_eq_some_iff.mp hi
  conv_rhs => rw [← List.take_append_drop i l, List.drop_eq_getElem_cons hlt]
  rw [List.modify_eq_take_cons_drop hlt, List.filter_append, List.filter_append,
    List.filter_cons_of_neg (by simp [hf]), List.filter_cons_of_neg (by simp [ha])]

theorem isPlaceholder_of_isLive (h : Entry.isLive t = true) : Entry.isPlaceholder t = false := by
  simpa [Entry.isLive] using h

/-- A committed table is called what it is called in the list. -/
theorem Stands.called (h : Stands t t') (name : String) :
    isCalled name t = (Entry.name t' == some name && Entry.isLive t') := by
  have hrest := congrArg Table.name h.rest
  have hname : t'.name = t.name := hrest
  rw [h.live, Bool.and_true, isCalled, ← hname]
  rfl

theorem Stands.named (h : Stands t t') (new : String) : Stands (named new t) (named new t') where
  rest := congrArg (Schema.named new) h.rest
  columns := h.columns
  live := h.live

/-- **Taking a table** out of the list takes it out of the ledger, if it was committed. -/
theorem Told.take (h : Told s l) {name : String} {i : Nat} (hi : s.tables.findLive? name = some i) :
    Told (s.takeTable i) { l with committed := l.committed.eraseP (isCalled name) } := by
  obtain ⟨t, hget, _, hlive⟩ := found_live hi
  rw [Entries.findLive?_eq_findIdx? h.ordered] at hi
  refine ⟨h.window.steal i, ?committed, ?log, h.ordered.steal i 1, ?columns⟩
  case committed =>
    show List.Forall₂ Stands _
      ((s.takeTable i).tables.values.take (if i < s.offset then s.offset - 1 else s.offset))
    rw [values_takeTable, Entries.take_eraseIdx h.window.le, ← eraseP_take hi]
    exact forall₂_eraseP (fun t t' hstands => hstands.called name) h.committed
  case log =>
    rw [values_takeTable]
    exact (filter_eraseIdx hget (isPlaceholder_of_isLive hlive)).trans h.log
  case columns =>
    intro t' ht'
    rw [values_takeTable] at ht'
    exact h.columns t' (List.mem_of_mem_eraseIdx ht')

/-- A table that is not there is not committed. -/
theorem Told.missing (h : Told s l) {name : String} (hi : s.tables.findLive? name = none) :
    ∀ t ∈ l.committed, ¬ isCalled name t = true := by
  rw [Entries.findLive?_eq_findIdx? h.ordered, List.findIdx?_eq_none_iff] at hi
  intro t ht hcalled
  obtain ⟨t', ht', hstands⟩ := exists_stands h.committed ht
  rw [hstands.called] at hcalled
  exact absurd (hi t' (List.mem_of_mem_take ht')) (by rw [hcalled]; decide)

/-- **Renaming a table** in the list renames it in the ledger, if it was committed. -/
theorem Told.rename (h : Told s l) (old new : String) :
    Told (s.renameLive old new) { l with committed := modifyFirst (isCalled old) (named new) l.committed } := by
  unfold renameLive
  cases hi : s.tables.findLive? old with
  | none =>
    rw [modifyFirst_of_forall_not (h.missing hi)]
    exact h
  | some i =>
    obtain ⟨t, hget, _, hlive⟩ := found_live hi
    rw [Entries.findLive?_eq_findIdx? h.ordered] at hi
    have hpending := isPlaceholder_of_isLive hlive
    refine ⟨h.window.modify i fun _ => rfl, ?committed, ?log, h.ordered.modify i _, ?columns⟩
    case committed =>
      show List.Forall₂ Stands _ ((s.tables.modify i (named new)).values.take s.offset)
      rw [Entries.values_modify, List.take_modify, ← modifyFirst_take hi]
      exact forall₂_modifyFirst (fun t t' hstands => hstands.called old) (fun t t' hstands => hstands.named new)
        h.committed
    case log =>
      rw [Entries.values_modify]
      exact (filter_modify hget hpending hpending).trans h.log
    case columns =>
      intro t' ht'
      rw [Entries.values_modify] at ht'
      rcases Entries.mem_modify ht' with ht' | ⟨t₀, ht₀, rfl⟩
      · exact h.columns t' ht'
      · exact h.columns t₀ ht₀

/-! ### Folding a delta in -/

/-- What a delta can hold: what stands for itself, or the drop or the rename of a table. -/
def IsEntry (t : Table) : Prop := Entry.isLive t = true ∨ ∃ change : NameChange, change.table = t

theorem Told.isEntry (h : Told s l) (ht : t ∈ s.tables.values) : IsEntry t := by
  cases hlive : Entry.isLive t with
  | true => exact .inl hlive
  | false =>
    obtain ⟨change, _, hchange⟩ := h.placeholder ht (by simpa [Entry.isLive] using hlive)
    exact .inr ⟨change, hchange⟩

theorem windowed_change (change : NameChange) : change.table.Windowed := by
  cases change <;> exact Table.windowed_new rfl

/-- A live table at the end is no part of the log. -/
theorem Told.appendLive (h : Told s l) (hvalues : s'.tables.values = s.tables.values ++ [t])
    (hoffset : s'.offset = s.offset) (hordered : s'.tables.Ordered) (hlive : Entry.isLive t = true)
    (ht : t.Windowed) : Told s' l := by
  have hnew : [t].filter Entry.isPlaceholder = ([] : List NameChange).map NameChange.table := by
    rw [List.filter_cons_of_neg (by simp [isPlaceholder_of_isLive hlive])]
    rfl
  have htold := h.append hvalues hoffset hordered hnew ht
  rwa [List.append_nil] at htold

/-- The entry of a change joins the log. -/
theorem Told.appendSlot (h : Told s l) {slot : Slot Table} {change : NameChange}
    (hslot : slot.value = change.table) :
    Told (s.appendSlot slot) { l with log := l.log ++ [change] } := by
  have hvalues : (s.appendSlot slot).tables.values = s.tables.values ++ [change.table] := by
    rw [values_appendSlot, hslot]
  have hplace : Entry.isPlaceholder change.table = true := congrArg Option.isSome change.oldName_table
  have hnew : [change.table].filter Entry.isPlaceholder = [change].map NameChange.table :=
    List.filter_cons_of_pos hplace
  exact h.append hvalues rfl (Entries.ordered_of_unsorted rfl) hnew (windowed_change change)

theorem Told.adopt (h : Told s l) (hlive : Entry.isLive t = true) (ht : t.Windowed) : Told (s.adopt t) l := by
  have hcollected : t.collectForeigns.Windowed := ht
  exact h.appendLive (values_adopt s t) (offset_registerType s _) (Entries.ordered_of_unsorted rfl) hlive hcollected

/-- A new body: its table moves to the end of the list. -/
theorem Told.applyAlter (h : Told s l) (hlive : Entry.isLive t = true) (ht : t.Windowed) {name : String}
    (hname : t.name = some name) (hok : (s.applyAlter t).2 = none) :
    Told (s.applyAlter t).1 { l with committed := l.committed.eraseP (isCalled name) } := by
  rcases s.applyAlter_cases hname with ⟨hi, hadopt⟩ | ⟨i, existing, hi, hvalue, hexisting, hcases⟩
  · rw [hadopt, List.eraseP_of_forall_not (h.missing hi)]
    exact h.adopt hlive ht
  · have hwindowed := h.columns existing (List.mem_of_getElem? hvalue)
    rcases hcases with ⟨merged, hmerged, _, hsame, hmerge⟩ | ⟨_, hrefuse⟩
    · rw [hmerge]
      exact (h.take hi).appendLive (values_appendSlot _ _) rfl (Entries.ordered_of_unsorted rfl)
        (hsame.isLive.trans hexisting) (Table.windowed_accumulate hwindowed hmerged)
    · rw [hrefuse] at hok
      exact absurd hok (by simp)

theorem Told.applyDrop (h : Told s l) {slot : Slot Table} {old : String} (hslot : slot.value = .dropOf old) :
    Told (s.applyDrop slot) ⟨l.committed.eraseP (isCalled old), l.log ++ [.drop old]⟩ := by
  have hold : slot.value.oldName = some old := congrArg Table.oldName hslot
  cases hi : s.tables.findLive? old with
  | none =>
    simp only [Schema.applyDrop, hold, Option.bind_some, hi]
    rw [List.eraseP_of_forall_not (h.missing hi)]
    exact h.appendSlot hslot
  | some i =>
    simp only [Schema.applyDrop, hold, Option.bind_some, hi]
    obtain ⟨hwindow, hcommitted, hlog, hordered, hcolumns⟩ := h.take hi
    have htyped : ∀ typeIndex, Told { s.takeTable i with typeIndex }
        { l with committed := l.committed.eraseP (isCalled old) } :=
      fun _ => ⟨hwindow, hcommitted, hlog, hordered, hcolumns⟩
    exact (htyped _).appendSlot hslot

theorem Told.applyRename (h : Told s l) {slot : Slot Table} {old new : String}
    (hslot : slot.value = .renameOf old new) :
    Told (s.applyRename slot) ⟨modifyFirst (isCalled old) (named new) l.committed, l.log ++ [.rename old new]⟩ := by
  have hold : slot.value.oldName = some old := congrArg Table.oldName hslot
  have hnew : slot.value.name = some new := congrArg Table.name hslot
  simp only [Schema.applyRename, hold, hnew]
  exact (h.rename old new).appendSlot hslot

/-- What is folded in of a placeholder joins the log, and nothing else does. -/
theorem new_of_isEntry {new : List NameChange} (hentry : IsEntry t)
    (hnew : [t].filter Entry.isPlaceholder = new.map NameChange.table) :
    (Entry.isLive t = true ∧ new = []) ∨ ∃ change, t = NameChange.table change ∧ new = [change] := by
  rcases hentry with hlive | ⟨change, rfl⟩
  · rw [List.filter_cons_of_neg (by simp [isPlaceholder_of_isLive hlive])] at hnew
    exact .inl ⟨hlive, List.map_eq_nil_iff.mp hnew.symm⟩
  · have hplace : Entry.isPlaceholder change.table = true := congrArg Option.isSome change.oldName_table
    rw [List.filter_cons_of_pos hplace] at hnew
    obtain ⟨change', hnew', hchange⟩ := List.map_eq_singleton_iff.mp hnew.symm
    exact .inr ⟨change', hchange.symm, hnew'⟩

/-- **One entry of a delta.** -/
theorem Told.applyEntry (h : Told s l) {slot : Slot Table} {new : List NameChange} (hentry : IsEntry slot.value)
    (hwindowed : slot.value.Windowed) (hnew : [slot.value].filter Entry.isPlaceholder = new.map NameChange.table)
    (hok : (s.applyEntry slot).2 = none) :
    Told (s.applyEntry slot).1 ⟨outlive l.committed slot.value, l.log ++ new⟩ := by
  rcases new_of_isEntry hentry hnew with ⟨hlive, rfl⟩ | ⟨change, hchange, rfl⟩
  · rw [List.append_nil, outlive]
    unfold Schema.applyEntry at hok ⊢
    cases hkind : Entry.change? slot.value with
    | none => exact h
    | some kind =>
      have hnames := names_of_change hkind
      rw [hkind] at hok
      cases kind with
      | add => exact h.adopt hlive hwindowed
      | alter =>
        obtain ⟨name, hname⟩ := Option.isSome_iff_exists.mp hnames
        rw [hname]
        exact h.applyAlter hlive hwindowed hname hok
      | drop =>
        obtain ⟨old, hold⟩ := Option.isSome_iff_exists.mp hnames.2
        exact absurd hlive (by simp [not_isLive_of_oldName hold])
      | rename =>
        obtain ⟨old, hold⟩ := Option.isSome_iff_exists.mp hnames.2
        exact absurd hlive (by simp [not_isLive_of_oldName hold])
  · cases change with
    | drop old =>
      have hkind : Entry.change? slot.value = some .drop := hchange ▸ NameChange.change_drop old
      simp only [Schema.applyEntry, hkind, outlive]
      rw [hchange]
      exact h.applyDrop hchange
    | rename old new =>
      have hkind : Entry.change? slot.value = some .rename := hchange ▸ NameChange.change_rename old new
      simp only [Schema.applyEntry, hkind, outlive]
      rw [hchange]
      exact h.applyRename hchange

theorem Told.applyEntries (h : Told s l) {slots : List (Slot Table)} {new : List NameChange}
    (hentry : ∀ slot ∈ slots, IsEntry slot.value ∧ slot.value.Windowed)
    (hnew : (slots.map Slot.value).filter Entry.isPlaceholder = new.map NameChange.table)
    (hok : (s.applyEntries slots).2 = none) :
    Told (s.applyEntries slots).1 ⟨(slots.map Slot.value).foldl outlive l.committed, l.log ++ new⟩ := by
  induction slots generalizing s l new with
  | nil =>
    obtain rfl : new = [] := List.map_eq_nil_iff.mp hnew.symm
    rw [List.append_nil]
    exact h
  | cons slot rest ih =>
    have hsplit : ((slot :: rest).map Slot.value).filter Entry.isPlaceholder =
        [slot.value].filter Entry.isPlaceholder ++ (rest.map Slot.value).filter Entry.isPlaceholder := by
      rw [← List.filter_append]
      rfl
    obtain ⟨first, later, rfl, hfirst, hlater⟩ := List.map_eq_append_iff.mp (hnew.symm.trans hsplit)
    obtain ⟨hslot, hwindowed⟩ := hentry slot List.mem_cons_self
    rw [Schema.applyEntries] at hok ⊢
    split at hok
    · next s' heq =>
      have hstep := h.applyEntry hslot hwindowed hfirst.symm (by rw [heq])
      rw [heq] at hstep
      have hrest := ih hstep (fun slot hmem => hentry slot (List.mem_cons_of_mem _ hmem)) hlater.symm hok
      rw [← List.append_assoc]
      exact hrest
    · exact absurd hok (by simp)

theorem stands_collectForeigns (h : Entry.isLive t = true) : Stands t t.collectForeigns := ⟨rfl, rfl, h⟩

/-- What the first delta finds: the keys are collected, and nothing else is touched. -/
theorem Told.prepared (h : Told s l) : Told s.prepared l := by
  unfold Schema.prepared
  split
  · exact h
  · have hchange : ∀ change : NameChange, change.table.collectForeigns = change.table := by
      intro change
      cases change <;> rfl
    exact h.map (Entries.values_modifyAll _ _) rfl (Entries.ordered_modifyAll _ _)
      (fun t hlive => stands_collectForeigns hlive) hchange fun t ht => ht

/-- **A delta that is folded in.** -/
theorem Told.accumulate (h : Told s l) (hdelta : Told delta changes) (hok : (s.accumulate delta).2 = none) :
    Told (s.accumulate delta).1 ⟨delta.tables.values.foldl outlive l.committed, l.log ++ changes.log⟩ := by
  have hentry : ∀ slot ∈ delta.tables.slots, IsEntry slot.value ∧ slot.value.Windowed := by
    intro slot hslot
    have hmem : slot.value ∈ delta.tables.values := List.mem_map_of_mem hslot
    exact ⟨hdelta.isEntry hmem, hdelta.columns _ hmem⟩
  cases hcheck : s.checkStatic delta with
  | error fault =>
    rw [Schema.accumulate, hcheck] at hok
    exact absurd hok (by simp)
  | ok =>
    obtain ⟨version, accumulated, hfold⟩ := accumulate_folded hcheck
    rw [hfold] at hok ⊢
    have hfolded := h.prepared.applyEntries hentry hdelta.log hok
    exact ⟨hfolded.window, hfolded.committed, hfolded.log, hfolded.ordered, hfolded.columns⟩

/-! ### The other steps -/

theorem stands_of_same (h : SameButKeys t t') (hlive : Entry.isLive t = true) : Stands t t' where
  rest := by
    have hrest := congrArg (fun t₁ : Table => { t₁ with foreigns := t.foreigns }) h.rest
    exact hrest
  columns := h.columns
  live := (congrArg Prod.snd h.entry).trans hlive

theorem Told.traceForeign (h : Told s l) {pool : NodePool Fate} (hp : pool.Valid) (capacity : UInt64) :
    Told (s.traceForeignWith pool capacity).1 l := by
  obtain ⟨htables, _⟩ := s.traceForeignWith_eq hp capacity
  obtain ⟨hrest, hordered⟩ := s.applyRewrites_rest ((sites s.tables.values.zipIdx).filterMap s.asked?)
  rw [htables]
  refine h.map (s.values_asked s) ?offset (hordered h.ordered) ?stands ?change fun t => t.windowed_traced s
  case offset =>
    have hoffset := congrArg Schema.offset hrest
    exact hoffset
  case stands =>
    intro t hlive
    rw [traced, if_pos hlive]
    exact stands_of_same (sameButKeys_foldl t _) hlive
  case change =>
    intro change
    have hplace : ¬ Entry.isLive change.table = true := by
      rw [not_isLive_of_oldName change.oldName_table]
      exact Bool.false_ne_true
    exact if_neg hplace

/-- A commit leaves the live tables, and all of them are committed. -/
theorem told_clearChanges (s : Schema) (clear set : Flags) : Told (s.clearChanges clear set)
    ⟨(s.tables.values.filter Entry.isLive).map fun t => t.commit clear set, []⟩ := by
  have hvalues := s.values_clearChanges clear set
  obtain ⟨hlive, hoffset, _, _⟩ := s.committed_clearChanges clear set
  refine ⟨?window, ?committed, ?log, Entries.ordered_modifyAll _ _, ?columns⟩
  case window =>
    rw [hoffset]
    exact Entries.window_length hlive
  case committed =>
    rw [hoffset, List.take_length, ← hvalues]
    exact List.forall₂_same.mpr fun t ht => .refl (hlive t ht)
  case log => exact List.filter_eq_nil_iff.mpr fun t ht => by simp [isPlaceholder_of_isLive (hlive t ht)]
  case columns =>
    intro t ht
    rw [hvalues] at ht
    obtain ⟨t₀, _, rfl⟩ := List.mem_map.mp ht
    exact t₀.windowed_commit clear set

theorem windowed_entry {call : SchemaCall} (h : call.Ordinary) : call.entry.Windowed := by
  cases call with
  | create name calls => exact (Table.edited_callAll _ calls).windowed (Table.windowed_new rfl)
  | createTyped name typeName size calls => exact (Table.edited_callAll _ calls).windowed (Table.windowed_new rfl)
  | alter name calls => exact (Table.edited_callAll _ calls).windowed (Table.windowed_new rfl)
  | changeName change => exact windowed_change change
  | insertStatic t =>
    have hordinary : t.Ordinary := h
    show t.Windowed
    induction hordinary with
    | plain name => exact Table.windowed_new rfl
    | ofType name typeName size => exact Table.windowed_new rfl
    | static name columns => exact Table.windowed_new rfl
    | attempt _ hcall ih => exact (Table.edited_attempt _ _).windowed (ih ‹_›)

/-- **A call** appends its entry to the list and its change to the log. -/
theorem Told.call (h : Told s l) (call : SchemaCall) (hcall : call.Ordinary) :
    Told (call.run s) { l with log := l.log ++ call.change?.toList } := by
  obtain ⟨hvalues, hoffset⟩ := s.values_run call
  have hordered := s.ordered_run call
  refine h.append hvalues hoffset hordered ?_ (windowed_entry hcall)
  rcases SchemaCall.entry_cases hcall with ⟨hnone, hlive⟩ | ⟨change, hsome, hentry⟩
  · rw [hnone, List.filter_cons_of_neg (by simp [isPlaceholder_of_isLive hlive])]
    rfl
  · have hplace : Entry.isPlaceholder change.table = true := congrArg Option.isSome change.oldName_table
    rw [hsome, hentry, List.filter_cons_of_pos hplace]
    rfl

/-- **The list says what the ledger says**, whatever led to it. -/
theorem Reached.told (h : Reached s l) : Told s l := by
  induction h with
  | new name version =>
    exact ⟨⟨Nat.zero_le _, by simp⟩, .nil, rfl, Entries.ordered_of_unsorted rfl, by simp [Entries.values]⟩
  | call call _ hcall ih => exact ih.call call hcall
  | accumulate _ _ hok ih ihdelta => exact ih.accumulate ihdelta hok
  | traceForeign pool capacity _ hp ih => exact ih.traceForeign hp capacity
  | clearChanges clear set _ _ => exact told_clearChanges _ clear set

/-- Calls put their changes into the log, in order. -/
theorem Reached.runAll (h : Reached s l) {calls : List SchemaCall} (hcalls : ∀ call ∈ calls, call.Ordinary) :
    Reached (SchemaCall.runAll s calls) { l with log := l.log ++ calls.filterMap SchemaCall.change? } := by
  induction calls generalizing s l with
  | nil =>
    rw [List.filterMap_nil, List.append_nil]
    exact h
  | cons call rest ih =>
    have hstep := ih (h.call call (hcalls call List.mem_cons_self)) fun call hmem =>
      hcalls call (List.mem_cons_of_mem _ hmem)
    rw [List.append_assoc] at hstep
    have hchanges : (call :: rest).filterMap SchemaCall.change? =
        call.change?.toList ++ rest.filterMap SchemaCall.change? := by
      cases hchange : call.change? <;> simp [hchange]
    rw [hchanges]
    exact hstep

/-- **The committed part and the pending log**, whatever calls, deltas, traces and commits led to the
schema. In front of the number stand the tables of the last commit that no folded body and no folded
drop took since, in the order that they had, and no placeholder. Behind it stand the placeholders of
the drops and renames that came since, in the order in which they came. The columns that a table owns
stand in two such parts, too. -/
theorem Reached.windows (h : Reached s l) :
    s.offset ≤ s.tables.length ∧
      (∀ t ∈ s.tables.values.take s.offset, Entry.isLive t = true) ∧
      (s.tables.values.drop s.offset).filter Entry.isPlaceholder = l.log.map NameChange.table ∧
      List.Forall₂ Stands l.committed (s.tables.values.take s.offset) ∧
      ∀ t ∈ s.tables.values, ∀ columns, t.columns = .owned columns →
        t.offset ≤ columns.length ∧ ∀ c ∈ columns.values.take t.offset, Entry.isLive c = true := by
  have htold := h.told
  have hlength : ∀ {ε : Type} (es : Entries ε), es.length = es.values.length := by
    intro ε es
    rw [Entries.length, Entries.values, List.length_map]
  have hfront : (s.tables.values.take s.offset).filter Entry.isPlaceholder = [] :=
    List.filter_eq_nil_iff.mpr fun t ht => by simp [isPlaceholder_of_isLive (htold.window.live t ht)]
  refine ⟨?_, htold.window.live, ?_, htold.committed, fun t ht columns hcolumns => ?_⟩
  · rw [hlength]
    exact htold.window.le
  · rw [← htold.log]
    conv_rhs => rw [← List.take_append_drop s.offset s.tables.values]
    rw [List.filter_append, hfront, List.nil_append]
  · have hwindow := htold.columns t ht columns hcolumns
    rw [hlength]
    exact ⟨hwindow.le, hwindow.live⟩

/-- Users, posts with a key to them, and tags. -/
def blogCalls : List SchemaCall :=
  [.create "users" [.add (.plain "id" .int)],
    .create "posts" [.add ((Column.plain "user_id" .int).reference "users" "id"), .add (.plain "text" .string)],
    .create "tags" []]

/-- Users get another name, posts another column, and tags go. -/
def blogChanges : List SchemaCall :=
  [.changeName (.rename "users" "accounts"), .alter "posts" [.drop "text", .add (.plain "title" .string)],
    .changeName (.drop "tags")]

/-- A commit of the blog, with the changes folded in and its keys followed. -/
def changedBlog : Schema :=
  let base := (SchemaCall.runAll { name := "app", version := 1 } blogCalls).clearChanges .empty .empty
  (base.accumulate (SchemaCall.runAll { name := "app", version := 2 } blogChanges)).1.traceForeign.1

/-- The users are left of the commit. -/
theorem Reached.windows_blog : ∃ l, Reached changedBlog l ∧
    l.committed.map Table.name = [some "accounts"] ∧
    List.Forall₂ Stands l.committed (changedBlog.tables.values.take changedBlog.offset) ∧
    (changedBlog.tables.values.drop changedBlog.offset).filter Entry.isPlaceholder =
      [.renameOf "users" "accounts", .dropOf "tags"] := by
  have hordinary : (∀ call ∈ blogCalls, call.Ordinary) ∧ ∀ call ∈ blogChanges, call.Ordinary := by
    simp only [blogCalls, blogChanges, SchemaCall.Ordinary, SchemaCall.Handing, List.forall_mem_cons,
      List.not_mem_nil, IsEmpty.forall_iff, implies_true, and_true, true_and]
    decide
  have hbase := ((Reached.new "app" 1).runAll hordinary.1).clearChanges .empty .empty
  have hdelta := (Reached.new "app" 2).runAll hordinary.2
  have hreached := (hbase.accumulate hdelta (by decide +kernel)).traceForeign _ RenameGraph.defaultCapacity
    (NodePool.valid_ofChunkSize NodePool.defaultChunkSize)
  obtain ⟨_, _, hlog, hcommitted, _⟩ := hreached.windows
  exact ⟨_, hreached, by decide +kernel, hcommitted, hlog⟩

end Schema
end SchemaShift

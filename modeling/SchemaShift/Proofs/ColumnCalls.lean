import SchemaShift.Proofs.Flags
import SchemaShift.Proofs.SortedMarks

/-! Column changes, carried out or recorded.

A table carries a column call out, and a table with the change flag records it as
an entry of a column log. Either way the same becomes of the columns that a commit
leaves: what the call asks of them (`ColumnCall.on`), whatever log stands among
them. Calls carried out (`Table.carries_attempt`) and calls recorded and folded in
later (`Table.carries_applyEntry`) therefore commit to the same table
(`Table.commit_recorded`), but for the mark of sorted columns, which no table that
the operations make has (`Table.Made.unsorted`). -/
namespace SchemaShift

/-- A column that stands for itself: it has a name and no old one. -/
def Column.Ordinary (c : Column) : Prop := c.name.isSome = true ∧ c.oldName = none

instance (c : Column) : Decidable c.Ordinary := inferInstanceAs (Decidable (_ ∧ _))

/-- A call that changes the columns of a table. -/
inductive ColumnCall where
  | add (c : Column)
  | alter (c : Column)
  | drop (name : String)
  | rename (old new : String)
  deriving DecidableEq, Repr

namespace ColumnCall

/-- The column that is handed over. -/
def column? : ColumnCall → Option Column
  | add c | alter c => some c
  | drop _ | rename _ _ => none

/-- A column that is handed over stands for itself. -/
def Ordinary (call : ColumnCall) : Prop := ∀ c ∈ call.column?, c.Ordinary

/-- A column that is handed over is not marked as a change. -/
def Unmarked (call : ColumnCall) : Prop := ∀ c ∈ call.column?, c.flags.isChange = false

instance (call : ColumnCall) : Decidable call.Ordinary :=
  inferInstanceAs (Decidable (∀ c ∈ call.column?, c.Ordinary))

instance (call : ColumnCall) : Decidable call.Unmarked :=
  inferInstanceAs (Decidable (∀ c ∈ call.column?, c.flags.isChange = false))

/-- The call, with what comes of it. -/
def run (t : Table) : ColumnCall → Except Fault Table
  | add c => t.addColumn c
  | alter c => t.alterColumn c
  | drop name => t.dropColumn name
  | rename old new => t.renameColumn old new

/-- The entry that records the call. -/
def entry : ColumnCall → Column
  | add c => c
  | alter c => c.alter
  | drop name => .dropOf name
  | rename old new => .renameOf old new

/-- What that entry asks for. -/
def kind : ColumnCall → Change
  | add _ => .add
  | alter _ => .alter
  | drop _ => .drop
  | rename _ _ => .rename

/-- The slot holds a column of that name. -/
def isNamed (name : String) (slot : Slot Column) : Bool := slot.value.name == some name

/-- The column under another name. -/
def renamed (new : String) (c : Column) : Column := { c with name := some new }

/-- The columns with the first one of that name renamed, in a copy of its own. -/
def renameFirst (old new : String) : List (Slot Column) → List (Slot Column)
  | [] => []
  | slot :: rest =>
    if isNamed old slot then Table.settleSlot (slot.modify (renamed new)) :: rest
    else slot :: renameFirst old new rest

/-- What the call asks of the columns that a commit leaves. -/
def on : ColumnCall → List (Slot Column) → List (Slot Column)
  | add c, columns => columns ++ [.owned c]
  | alter c, columns => columns.eraseP (isNamed (c.name.getD "")) ++ [.owned c]
  | drop name, columns => columns.eraseP (isNamed name)
  | rename old new, columns => renameFirst old new columns

end ColumnCall

namespace Table
open ColumnCall

/-- The table after a call; one that fails leaves it as it was. -/
def attempt (t : Table) (call : ColumnCall) : Table :=
  match call.run t with
  | .ok t' => t'
  | .error _ => t

/-- The table after calls, whatever came of each. -/
def callAll (t : Table) (calls : List ColumnCall) : Table := calls.foldl attempt t

/-! ### What a commit leaves of the columns -/

/-- The slots that a commit leaves. -/
def lasting (slots : List (Slot Column)) : List (Slot Column) :=
  (slots.filter fun slot => Entry.isLive slot.value).map settleSlot

variable {columns : Entries Column} {slots : List (Slot Column)} {slot : Slot Column}

theorem lasting_live (h : Entry.isLive slot.value = true) (slots : List (Slot Column)) :
    lasting (slot :: slots) = settleSlot slot :: lasting slots := by
  rw [lasting, List.filter_cons_of_pos (p := fun slot : Slot Column => Entry.isLive slot.value) h]
  rfl

theorem lasting_placeholder (h : ¬ Entry.isLive slot.value = true) (slots : List (Slot Column)) :
    lasting (slot :: slots) = lasting slots := by
  rw [lasting, List.filter_cons_of_neg (p := fun slot : Slot Column => Entry.isLive slot.value) h]
  rfl

theorem lasting_append (slots slots' : List (Slot Column)) :
    lasting (slots ++ slots') = lasting slots ++ lasting slots' := by
  rw [lasting, List.filter_append, List.map_append]
  rfl

theorem isNamed_settleSlot (name : String) (slot : Slot Column) :
    isNamed name (settleSlot slot) = isNamed name slot := by
  cases slot <;> rfl

theorem settleSlot_renamed (new : String) (slot : Slot Column) :
    settleSlot ((settleSlot slot).modify (renamed new)) = settleSlot (slot.modify (renamed new)) := by
  cases slot with
  | shared c => rfl
  | owned c =>
    have hflags := c.flags.remove_remove .change
    exact congrArg (fun flags => Slot.owned { c with name := some new, flags }) hflags

/-- The live column of that name taken out, if there is one. -/
def without (columns : Entries Column) (name : String) : Entries Column :=
  match columns.findLive? name with
  | some i => (columns.steal i 1).2
  | none => columns

/-- The live column of that name renamed, if there is one. -/
def withRenamed (columns : Entries Column) (old new : String) : Entries Column :=
  match columns.findLive? old with
  | some i => columns.modify i (renamed new)
  | none => columns

/-- A look-up goes for the first live slot of the name. -/
theorem findLive?_eq (ho : columns.Ordered) (name : String) :
    columns.findLive? name =
      columns.slots.findIdx? fun slot => isNamed name slot && Entry.isLive slot.value :=
  Entries.position_eq_scan ho _ _

/-- The first live slot of a name is the first one of that name among those that last. -/
theorem lasting_eraseP (name : String) (slots : List (Slot Column)) :
    lasting (slots.eraseP fun slot => isNamed name slot && Entry.isLive slot.value) =
      (lasting slots).eraseP (isNamed name) := by
  induction slots with
  | nil => rfl
  | cons slot rest ih =>
    by_cases hlive : Entry.isLive slot.value = true
    · rw [lasting_live hlive]
      by_cases hname : isNamed name slot = true
      · rw [List.eraseP_cons_of_pos (by rw [hname, hlive]; rfl),
          List.eraseP_cons_of_pos (by rwa [isNamed_settleSlot])]
      · rw [List.eraseP_cons_of_neg (by simp [hname]), lasting_live hlive, ih,
          List.eraseP_cons_of_neg (by rwa [isNamed_settleSlot])]
    · rw [List.eraseP_cons_of_neg (by simp [hlive]), lasting_placeholder hlive, lasting_placeholder hlive, ih]

theorem lasting_without (ho : columns.Ordered) (name : String) :
    lasting (without columns name).slots = (lasting columns.slots).eraseP (isNamed name) := by
  rw [← lasting_eraseP, List.eraseP_eq_eraseIdx, ← findLive?_eq ho, without]
  cases columns.findLive? name with
  | none => rfl
  | some i => exact congrArg lasting (List.eraseIdx_eq_take_drop_succ columns.slots i).symm

theorem lasting_set {old : String} {i : Nat}
    (hi : slots.findIdx? (fun slot => isNamed old slot && Entry.isLive slot.value) = some i)
    (hslot : slots[i]? = some slot) (new : String) :
    lasting (slots.set i (slot.modify (renamed new))) = renameFirst old new (lasting slots) := by
  induction slots generalizing i with
  | nil => simp at hslot
  | cons first rest ih =>
    rw [List.findIdx?_cons] at hi
    by_cases hfound : (isNamed old first && Entry.isLive first.value) = true
    · rw [if_pos hfound] at hi
      obtain rfl := Option.some.inj hi
      obtain rfl : first = slot := by simpa using hslot
      obtain ⟨hname, hlive⟩ := Bool.and_eq_true_iff.mp hfound
      have hlive' : Entry.isLive (first.modify (renamed new)).value = true := hlive
      rw [List.set_cons_zero, lasting_live hlive', lasting_live hlive, renameFirst, isNamed_settleSlot,
        if_pos hname, settleSlot_renamed]
    · rw [if_neg hfound] at hi
      obtain ⟨j, hj, rfl⟩ := Option.map_eq_some_iff.mp hi
      have hrest := ih hj (by simpa using hslot)
      rw [List.set_cons_succ]
      by_cases hlive : Entry.isLive first.value = true
      · have hname : ¬ isNamed old first = true := fun hname => hfound (by rw [hname, hlive]; rfl)
        rw [lasting_live hlive, lasting_live hlive, renameFirst, isNamed_settleSlot, if_neg hname, hrest]
      · rw [lasting_placeholder hlive, lasting_placeholder hlive, hrest]

/-- Without a column of that name there is nothing to rename. -/
theorem renameFirst_of_none {old : String} (h : ∀ slot ∈ slots, ¬ isNamed old slot = true) (new : String) :
    renameFirst old new slots = slots := by
  induction slots with
  | nil => rfl
  | cons slot rest ih =>
    rw [renameFirst, if_neg (h slot List.mem_cons_self),
      ih fun slot hslot => h slot (List.mem_cons_of_mem _ hslot)]

theorem lasting_withRenamed (ho : columns.Ordered) (old new : String) :
    lasting (withRenamed columns old new).slots = renameFirst old new (lasting columns.slots) := by
  have hfind := findLive?_eq ho old
  unfold withRenamed
  cases hi : columns.findLive? old with
  | none =>
    rw [hi] at hfind
    have hmiss := List.findIdx?_eq_none_iff.mp hfind.symm
    refine (renameFirst_of_none (fun slot hslot hname => ?_) new).symm
    obtain ⟨slot, hmem, rfl⟩ := List.mem_map.mp hslot
    obtain ⟨hmem, hlive⟩ := List.mem_filter.mp hmem
    rw [isNamed_settleSlot] at hname
    exact absurd (hmiss slot hmem) (by rw [hname, hlive]; decide)
  | some i =>
    rw [hi] at hfind
    obtain ⟨hlt, _⟩ := List.findIdx?_eq_some_iff_getElem.mp hfind.symm
    have hslot := List.getElem?_eq_getElem hlt
    simp only [Entries.modify, hslot]
    exact lasting_set hfind.symm hslot new

/-! ### Calls -/

/-- What calls ask of the columns that a commit leaves. -/
def onAll (calls : List ColumnCall) (slots : List (Slot Column)) : List (Slot Column) :=
  calls.foldl (fun slots call => call.on slots) slots

/-- The columns after calls, in as much as a commit tells. -/
structure Carried (calls : List ColumnCall) (columns columns' : Entries Column) : Prop where
  lasting : lasting columns'.slots = onAll calls (lasting columns.slots)
  typeName : columns'.typeName = columns.typeName
  size : columns'.size = columns.size
  ordered : columns'.Ordered
  unsorted : columns.sorted = false → columns'.sorted = false

theorem Carried.nil (ho : columns.Ordered) : Carried [] columns columns := ⟨rfl, rfl, rfl, ho, id⟩

theorem Carried.cons {call : ColumnCall} {calls : List ColumnCall} {columns₁ columns₂ : Entries Column}
    (h : Carried [call] columns columns₁) (h' : Carried calls columns₁ columns₂) :
    Carried (call :: calls) columns columns₂ where
  lasting := by rw [h'.lasting, h.lasting]; rfl
  typeName := h'.typeName.trans h.typeName
  size := h'.size.trans h.size
  ordered := h'.ordered
  unsorted hsorted := h'.unsorted (h.unsorted hsorted)

/-- What the log keeps for itself does not last. -/
theorem Carried.placeholder {calls : List ColumnCall} {columns' : Entries Column}
    (h : Carried calls columns columns') (hslot : ¬ Entry.isLive slot.value = true) :
    Carried calls columns (columns'.insert slot) where
  lasting := by
    refine Eq.trans ?_ h.lasting
    show Table.lasting (columns'.slots ++ [slot]) = _
    rw [lasting_append, lasting_placeholder hslot]
    exact List.append_nil _
  typeName := h.typeName
  size := h.size
  ordered := Entries.ordered_of_unsorted rfl
  unsorted _ := rfl

variable {c c' : Column}

theorem carried_add (hlive : Entry.isLive c' = true) (hsettle : settleSlot (.owned c') = .owned c)
    (columns : Entries Column) : Carried [.add c] columns (columns.insert (.owned c')) where
  lasting := by
    show lasting (columns.slots ++ [.owned c']) = lasting columns.slots ++ [.owned c]
    have hlive' : Entry.isLive (Slot.owned c').value = true := hlive
    rw [lasting_append, lasting_live hlive', hsettle]
    rfl
  typeName := rfl
  size := rfl
  ordered := Entries.ordered_of_unsorted rfl
  unsorted _ := rfl

theorem carried_drop (ho : columns.Ordered) (name : String) :
    Carried [.drop name] columns (without columns name) where
  lasting := lasting_without ho name
  typeName := by unfold without; split <;> rfl
  size := by unfold without; split <;> rfl
  ordered := by
    unfold without
    split
    · exact ho.steal _ 1
    · exact ho
  unsorted hsorted := by unfold without; split <;> exact hsorted

theorem carried_alter {name : String} (ho : columns.Ordered) (hname : c.name = some name)
    (hlive : Entry.isLive c' = true) (hsettle : settleSlot (.owned c') = .owned c) :
    Carried [.alter c] columns ((without columns name).insert (.owned c')) := by
  have hdrop := carried_drop ho name
  have hadd := carried_add hlive hsettle (without columns name)
  refine { hdrop.cons hadd with lasting := ?_ }
  rw [hadd.lasting, hdrop.lasting, onAll, onAll, onAll, List.foldl_cons, List.foldl_cons, List.foldl_cons, on, on,
    on, hname]
  rfl

theorem shape_withRenamed (columns : Entries Column) (old new : String) :
    (withRenamed columns old new).typeName = columns.typeName ∧
      (withRenamed columns old new).size = columns.size ∧
      (columns.sorted = false → (withRenamed columns old new).sorted = false) := by
  unfold withRenamed
  split
  · unfold Entries.modify
    split
    · exact ⟨rfl, rfl, fun _ => rfl⟩
    · exact ⟨rfl, rfl, id⟩
  · exact ⟨rfl, rfl, id⟩

theorem carried_rename (ho : columns.Ordered) (old new : String) :
    Carried [.rename old new] columns (withRenamed columns old new) where
  lasting := lasting_withRenamed ho old new
  typeName := (shape_withRenamed columns old new).1
  size := (shape_withRenamed columns old new).2.1
  ordered := by
    unfold withRenamed
    split
    · exact ho.modify _ _
    · exact ho
  unsorted := (shape_withRenamed columns old new).2.2

/-- The table with other columns; where the log starts and which keys are listed is left open. -/
def Refilled (t : Table) (columns : Entries Column) (t' : Table) : Prop :=
  ∃ offset foreigns, t' = { t with columns := .owned columns, offset, foreigns }

variable {t t' t'' : Table} {columns' : Entries Column} {call : ColumnCall} {calls : List ColumnCall}

theorem Refilled.refl (hcolumns : t.columns = .owned columns) : t.Refilled columns t :=
  ⟨t.offset, t.foreigns, congrArg (fun columns => { t with columns }) hcolumns⟩

theorem Refilled.trans (h : t.Refilled columns t') (h' : t'.Refilled columns' t'') : t.Refilled columns' t'' := by
  obtain ⟨_, _, rfl⟩ := h
  obtain ⟨offset, foreigns, rfl⟩ := h'
  exact ⟨offset, foreigns, rfl⟩

theorem Refilled.columns_eq (h : t.Refilled columns t') : t'.columns = .owned columns := by
  obtain ⟨_, _, rfl⟩ := h
  rfl

theorem Refilled.flags_eq (h : t.Refilled columns t') : t'.flags = t.flags := by
  obtain ⟨_, _, rfl⟩ := h
  rfl

theorem Refilled.appendSlot (h : t.Refilled columns t') (slot : Slot Column) :
    t.Refilled (columns.insert slot) (t'.appendSlot slot) := by
  obtain ⟨offset, foreigns, rfl⟩ := h
  exact ⟨offset, foreigns, rfl⟩

theorem Refilled.foreigns (h : t.Refilled columns t') (foreigns : List String) :
    t.Refilled columns { t' with foreigns } := by
  obtain ⟨offset, _, rfl⟩ := h
  exact ⟨offset, foreigns, rfl⟩

/-- A step does to the columns what calls ask of them, and leaves the rest alone. -/
def Carries (calls : List ColumnCall) (t t' : Table) : Prop :=
  ∀ columns, t.columns = .owned columns → columns.Ordered →
    ∃ columns', t.Refilled columns' t' ∧ Carried calls columns columns'

/-- Steps that each do what their call asks for do what all calls ask for. -/
theorem carries_foldl {step : Table → ColumnCall → Table}
    (hstep : ∀ call ∈ calls, ∀ t' : Table, t'.flags = t.flags → Carries [call] t' (step t' call)) :
    Carries calls t (calls.foldl step t) := by
  induction calls generalizing t with
  | nil => exact fun columns hcolumns ho => ⟨columns, .refl hcolumns, .nil ho⟩
  | cons call rest ih =>
    intro columns hcolumns ho
    obtain ⟨columns₁, hfill, hcarried⟩ := hstep call List.mem_cons_self t rfl columns hcolumns ho
    have hrest : ∀ call' ∈ rest, ∀ t' : Table, t'.flags = (step t call).flags →
        Carries [call'] t' (step t' call') := fun call' hmem t' hflags =>
      hstep call' (List.mem_cons_of_mem _ hmem) t' (hflags.trans hfill.flags_eq)
    obtain ⟨columns₂, hfill', hcarried'⟩ := ih hrest columns₁ hfill.columns_eq hcarried.ordered
    exact ⟨columns₂, hfill.trans hfill', hcarried.cons hcarried'⟩

theorem settleSlot_unmarked (h : c.flags.isChange = false) : settleSlot (.owned c) = .owned c := by
  have hflags : c.removeFlags .change = c := by rw [Column.removeFlags, Flags.remove_change h]
  exact congrArg Slot.owned hflags

theorem settleSlot_alter (h : c.flags.isChange = false) : settleSlot (.owned c.alter) = .owned c := by
  have hflags : c.alter.removeFlags .change = c := by
    rw [Column.alter, Column.insertFlags, Column.removeFlags, Flags.remove_insert, Flags.remove_change h]
  exact congrArg Slot.owned hflags

theorem isLive_of_ordinary (h : c.Ordinary) : Entry.isLive c = true := by
  show (!c.oldName.isSome) = true
  rw [h.2]
  rfl

/-! ### Calls carried out -/

theorem refilled_withoutColumn (hcolumns : t.columns = .owned columns) (name : String) :
    t.Refilled (without columns name) (t.withoutColumn columns name) := by
  unfold withoutColumn without
  cases columns.findLive? name with
  | none => exact .refl hcolumns
  | some i => exact ⟨_, t.foreigns, rfl⟩

theorem attempt_add (hcolumns : t.columns = .owned columns) (c : Column) :
    t.Refilled (columns.insert (.owned c)) (t.attempt (.add c)) := by
  refine ⟨t.offset, (t.attempt (.add c)).foreigns, ?_⟩
  simp only [attempt, run, addColumn, ownedColumns, appendSlot, entries, hcolumns]
  rfl

theorem attempt_alter (hcolumns : t.columns = .owned columns) (hflag : t.flags.isChange = false) {name : String}
    (hname : c.name = some name) :
    t.Refilled ((without columns name).insert (.owned c)) (t.attempt (.alter c)) := by
  have hwithout := (refilled_withoutColumn hcolumns name).appendSlot (.owned c)
  simp only [attempt, run, alterColumn, hflag, hname, ownedColumns, hcolumns]
  exact hwithout.foreigns _

theorem attempt_drop (hcolumns : t.columns = .owned columns) (hflag : t.flags.isChange = false) (name : String) :
    t.Refilled (without columns name) (t.attempt (.drop name)) := by
  simp only [attempt, run, dropColumn, hflag, ownedColumns, hcolumns]
  exact (refilled_withoutColumn hcolumns name).foreigns _

theorem attempt_rename (hcolumns : t.columns = .owned columns) (hflag : t.flags.isChange = false)
    (old new : String) : t.Refilled (withRenamed columns old new) (t.attempt (.rename old new)) := by
  rw [withRenamed, attempt, run, renameColumn, hflag, ownedColumns, hcolumns]
  dsimp only [bind, Except.bind]
  cases columns.findLive? old with
  | none => exact .refl hcolumns
  | some i => exact ⟨t.offset, renameIn old new t.foreigns, rfl⟩

/-- **A call that is carried out** does to the columns what it asks for. -/
theorem carries_attempt (hflag : t.flags.isChange = false) (hordinary : call.Ordinary)
    (hunmarked : call.Unmarked) : Carries [call] t (t.attempt call) := by
  intro columns hcolumns ho
  cases call with
  | add c =>
    have hlive := isLive_of_ordinary (hordinary c rfl)
    exact ⟨_, attempt_add hcolumns c, carried_add hlive (settleSlot_unmarked (hunmarked c rfl)) columns⟩
  | alter c =>
    have hlive := isLive_of_ordinary (hordinary c rfl)
    obtain ⟨name, hname⟩ := Option.isSome_iff_exists.mp (hordinary c rfl).1
    exact ⟨_, attempt_alter hcolumns hflag hname,
      carried_alter ho hname hlive (settleSlot_unmarked (hunmarked c rfl))⟩
  | drop name => exact ⟨_, attempt_drop hcolumns hflag name, carried_drop ho name⟩
  | rename old new => exact ⟨_, attempt_rename hcolumns hflag old new, carried_rename ho old new⟩

/-! ### Calls folded in -/

theorem refilled_takeNamed (hcolumns : t.columns = .owned columns) (name : String) :
    t.Refilled (without columns name) (t.takeNamed (some name)) := by
  have hentries : t.entries = columns := by rw [entries, hcolumns]; rfl
  rw [takeNamed, Option.bind_some, hentries, without]
  cases hi : columns.findLive? name with
  | none => exact .refl hcolumns
  | some i =>
    have htake : t.Refilled (columns.steal i 1).2 (t.takeColumn columns i) := ⟨_, t.foreigns, rfl⟩
    dsimp only [takeLive]
    rw [hentries]
    split
    · exact htake.foreigns _
    · exact htake

theorem refilled_renameLive (hcolumns : t.columns = .owned columns) (old new : String) :
    t.Refilled (withRenamed columns old new) (t.renameLive old new) := by
  have hentries : t.entries = columns := by rw [entries, hcolumns]; rfl
  rw [renameLive, hentries, withRenamed]
  cases hi : columns.findLive? old with
  | none => exact .refl hcolumns
  | some i => exact ⟨t.offset, _, rfl⟩

theorem Refilled.track (h : t.Refilled columns t') (c : Column) : t.Refilled columns (t'.track c) := by
  unfold Table.track
  split
  · split
    · exact h.foreigns _
    · exact h
  · exact h

theorem change_of_ordinary (h : c.Ordinary) :
    Entry.change? c = some (if c.flags.isChange then .alter else .add) := by
  obtain ⟨name, hname⟩ := Option.isSome_iff_exists.mp h.1
  have hname' : Entry.name c = some name := hname
  have hold : Entry.oldName c = none := h.2
  rw [Entry.change?, hname', hold]
  show (if c.flags.isChange then some Change.alter else some Change.add) = _
  split <;> rfl

theorem isChange_alter (c : Column) : c.alter.flags.isChange = true := by
  rw [Column.alter, Column.insertFlags, Flags.isChange_eq, Flags.bit_insert, Bool.or_eq_true]
  exact .inr (by decide)

/-- The entry of a call asks for what the call asks for. -/
theorem change_entry (hordinary : call.Ordinary) (hunmarked : call.Unmarked) :
    Entry.change? call.entry = some call.kind := by
  cases call with
  | add c =>
    rw [entry, change_of_ordinary (hordinary c rfl), hunmarked c rfl]
    rfl
  | alter c =>
    have halter : c.alter.Ordinary := hordinary c rfl
    rw [entry, change_of_ordinary halter, isChange_alter]
    rfl
  | drop name => rfl
  | rename old new =>
    have hflag : Flags.empty.isChange = false := by decide
    show (if Flags.empty.isChange then some Change.alter else some Change.rename) = _
    rw [hflag]
    rfl

/-- **A call that was recorded and is folded in** does to the columns what it asks for. -/
theorem carries_applyEntry (hordinary : call.Ordinary) (hunmarked : call.Unmarked) :
    Carries [call] t (t.applyEntry (.owned call.entry)) := by
  intro columns hcolumns ho
  have hkind := change_entry hordinary hunmarked
  cases call with
  | add c =>
    have hlive := isLive_of_ordinary (hordinary c rfl)
    have hfill := ((Refilled.refl hcolumns).track c).appendSlot (.owned c)
    simp only [applyEntry, Slot.value, hkind]
    exact ⟨_, hfill, carried_add hlive (settleSlot_unmarked (hunmarked c rfl)) columns⟩
  | alter c =>
    have hlive := isLive_of_ordinary (hordinary c rfl)
    obtain ⟨name, hname⟩ := Option.isSome_iff_exists.mp (hordinary c rfl).1
    have hfill := ((refilled_takeNamed hcolumns name).track c.alter).appendSlot (.owned c.alter)
    rw [← hname] at hfill
    simp only [applyEntry, Slot.value, hkind]
    exact ⟨_, hfill, carried_alter ho hname hlive (settleSlot_alter (hunmarked c rfl))⟩
  | drop name =>
    have hfill := (refilled_takeNamed hcolumns name).appendSlot (.owned (.dropOf name))
    simp only [applyEntry, Slot.value, hkind]
    exact ⟨_, hfill, (carried_drop ho name).placeholder Bool.false_ne_true⟩
  | rename old new =>
    have hfill := (refilled_renameLive hcolumns old new).appendSlot (.owned (.renameOf old new))
    simp only [applyEntry, Slot.value, hkind]
    exact ⟨_, hfill, (carried_rename ho old new).placeholder Bool.false_ne_true⟩

/-! ### Calls recorded -/

/-- A table with the change flag records a call as its entry. -/
theorem attempt_recorded {log : Entries Column} (hcolumns : t.columns = .owned log)
    (hflag : t.flags.isChange = true) (call : ColumnCall) :
    t.attempt call = t.appendSlot (.owned call.entry) := by
  cases call with
  | add c =>
    simp only [attempt, run, addColumn, ownedColumns, hcolumns, hflag, Bool.not_true, Bool.and_false]
    rfl
  | alter c =>
    rw [attempt, run, alterColumn, if_pos hflag, ownedColumns, hcolumns]
    rfl
  | drop name =>
    simp only [attempt, run, dropColumn, ownedColumns, hcolumns, hflag]
    rfl
  | rename old new =>
    simp only [attempt, run, renameColumn, ownedColumns, hcolumns, hflag]
    rfl

theorem callAll_recorded {log : Entries Column} (hcolumns : t.columns = .owned log)
    (hflag : t.flags.isChange = true) (calls : List ColumnCall) :
    (t.callAll calls).flags = t.flags ∧
      (t.callAll calls).entries.slots = log.slots ++ calls.map fun call => .owned call.entry := by
  induction calls generalizing t log with
  | nil =>
    rw [callAll, List.foldl_nil, entries, hcolumns, List.map_nil, List.append_nil]
    exact ⟨rfl, rfl⟩
  | cons call rest ih =>
    have hcall := attempt_recorded hcolumns hflag call
    have hentries : t.entries = log := by rw [entries, hcolumns]; rfl
    have hcolumns' : (t.attempt call).columns = .owned (log.insert (.owned call.entry)) := by
      rw [hcall, appendSlot, hentries]
    have hflags : (t.attempt call).flags = t.flags := by rw [hcall]; rfl
    obtain ⟨hkeep, hslots⟩ := ih hcolumns' (hflags ▸ hflag)
    refine ⟨hkeep.trans hflags, hslots.trans ?_⟩
    rw [Entries.insert, List.map_cons, List.append_assoc]
    rfl

/-! ### The two ways -/

/-- The table without the mark that says whether its columns are sorted. -/
def clearMark (t : Table) : Table :=
  { t with columns := t.columns.modify fun columns => { columns with sorted := false } }

/-- Columns that calls brought from the same ones settle to the same, but for the mark. -/
theorem settle_carried {columns₁ columns₂ : Entries Column} (h₁ : Carried calls columns columns₁)
    (h₂ : Carried calls columns columns₂) :
    { settle columns₁ with sorted := false } = { settle columns₂ with sorted := false } ∧
      (columns.sorted = false → settle columns₁ = settle columns₂) := by
  have hslots : (settle columns₁).slots = (settle columns₂).slots := h₁.lasting.trans h₂.lasting.symm
  have htype : (settle columns₁).typeName = (settle columns₂).typeName := h₁.typeName.trans h₂.typeName.symm
  have hsize : (settle columns₁).size = (settle columns₂).size := h₁.size.trans h₂.size.symm
  have hsame : { settle columns₁ with sorted := false } = { settle columns₂ with sorted := false } := by
    rw [Entries.mk.injEq]
    exact ⟨htype, hsize, hslots, rfl⟩
  have hmark : ∀ {columns' : Entries Column}, columns'.sorted = false →
      settle columns' = { settle columns' with sorted := false } := by
    intro columns' h
    have hsorted : (settle columns').sorted = false := by
      show (columns'.sorted && _) = false
      rw [h, Bool.false_and]
    rw [← hsorted]
  refine ⟨hsame, fun hsorted => ?_⟩
  calc settle columns₁ = { settle columns₁ with sorted := false } := hmark (h₁.unsorted hsorted)
    _ = { settle columns₂ with sorted := false } := hsame
    _ = settle columns₂ := (hmark (h₂.unsorted hsorted)).symm

/-- What a commit leaves of a table, given the columns that it settles to. -/
def committed (t : Table) (columns : Entries Column) (clear set : Flags) : Table :=
  collectForeigns { t with
    columns := .owned columns
    offset := columns.length
    flags := ((t.flags.remove .change).remove clear).insert set }

theorem commit_refilled (h : t.Refilled columns t') (clear set : Flags) :
    t'.commit clear set = t.committed (settle columns) clear set := by
  obtain ⟨_, _, rfl⟩ := h
  rfl

theorem committed_insertFlags (t : Table) (columns : Entries Column) (clear set : Flags) :
    (t.insertFlags .change).committed columns clear set = t.committed columns clear set := by
  rw [committed, insertFlags, Flags.remove_insert]
  rfl

/-- A recorded log is folded in entry by entry. -/
theorem accumulate_recorded {change : Table} {log : Entries Column} (hcolumns : t.columns = .owned columns)
    (hlog : change.columns = .owned log) (hempty : log.slots = []) (hchange : change.flags.isChange = true)
    (calls : List ColumnCall) :
    t.accumulate (change.callAll calls) =
      .ok (calls.foldl (fun t call => t.applyEntry (.owned call.entry))
        (if columns.isEmpty then t.insertFlags .change else t)) := by
  obtain ⟨hflags, hslots⟩ := callAll_recorded hlog hchange calls
  rw [accumulate, ownedColumns, hcolumns, hslots, hempty, hflags, hchange, List.nil_append]
  dsimp only [bind, Except.bind]
  rw [Bool.and_true, List.foldl_map]
  rfl

/-- **Recorded and carried out is the same.** Calls recorded in an empty change table, folded into
a table and committed leave the table that carrying them out and committing leaves, whatever
becomes of each call. -/
theorem commit_recorded {change : Table} {log : Entries Column} (hcolumns : t.columns = .owned columns)
    (ho : columns.Ordered) (hflag : t.flags.isChange = false) (hlog : change.columns = .owned log)
    (hempty : log.slots = []) (hchange : change.flags.isChange = true)
    (hordinary : ∀ call ∈ calls, call.Ordinary) (hunmarked : ∀ call ∈ calls, call.Unmarked)
    (clear set : Flags) :
    ∃ merged, t.accumulate (change.callAll calls) = .ok merged ∧
      (merged.commit clear set).clearMark = ((t.callAll calls).commit clear set).clearMark ∧
      (columns.sorted = false →
        merged.commit clear set = (t.callAll calls).commit clear set) := by
  have hdirect : Carries calls t (t.callAll calls) := carries_foldl fun call hcall t' hflags =>
    carries_attempt (hflags ▸ hflag) (hordinary call hcall) (hunmarked call hcall)
  have hreplay : ∀ start : Table, Carries calls start
      (calls.foldl (fun t call => t.applyEntry (.owned call.entry)) start) := fun start =>
    carries_foldl fun call hcall t' _ => carries_applyEntry (hordinary call hcall) (hunmarked call hcall)
  refine ⟨_, accumulate_recorded hcolumns hlog hempty hchange calls, ?_⟩
  generalize hstart : (if columns.isEmpty then t.insertFlags .change else t) = start
  have hcolumns' : start.columns = .owned columns := by
    rw [← hstart]
    split <;> exact hcolumns
  have hcommitted : ∀ columns', start.committed columns' clear set = t.committed columns' clear set := by
    intro columns'
    rw [← hstart]
    split
    · exact committed_insertFlags t columns' clear set
    · rfl
  obtain ⟨columns₁, hfill₁, hcarried₁⟩ := hreplay start columns hcolumns' ho
  obtain ⟨columns₂, hfill₂, hcarried₂⟩ := hdirect columns hcolumns ho
  obtain ⟨hsame, hequal⟩ := settle_carried hcarried₁ hcarried₂
  rw [commit_refilled hfill₁, commit_refilled hfill₂, hcommitted]
  constructor
  · exact congrArg (fun columns' => t.committed columns' clear set) hsame
  · exact fun hsorted => congrArg (fun columns' => t.committed columns' clear set) (hequal hsorted)

/-- Orders with their user and a note. -/
def orders : Table :=
  { name := some "orders", offset := 3, foreigns := ["user_id"]
    columns := .owned { slots := [
      .owned (.plain "id" .int), .owned ((Column.plain "user_id" .int).reference "users" "id"),
      .owned (.plain "note" .string)] } }

/-- The user gets another name and then another body, the note goes, two calls miss it after
that, and a column comes. -/
def reworking : List ColumnCall :=
  [.rename "user_id" "owner_id", .alter ((Column.plain "owner_id" .int64).reference "accounts" "id"),
    .drop "note", .drop "note", .rename "note" "remark", .add (.plain "total" .double)]

/-- Both ways lead to the same three columns. -/
theorem commit_recorded_orders :
    (((orders.callAll reworking).commit .empty .empty).entries.values.filterMap Column.name =
        ["id", "owner_id", "total"]) ∧
      ∃ merged, orders.accumulate (((Table.plain "orders").insertFlags .change).callAll reworking) = .ok merged ∧
        merged.commit .empty .empty = (orders.callAll reworking).commit .empty .empty := by
  have hcolumns : orders.columns = .owned orders.entries := rfl
  have hlog : ((Table.plain "orders").insertFlags .change).columns = .owned {} := rfl
  have hordinary : ∀ call ∈ reworking, call.Ordinary := by decide
  have hunmarked : ∀ call ∈ reworking, call.Unmarked := by decide
  obtain ⟨merged, hmerged, _, hsame⟩ := commit_recorded hcolumns (Entries.ordered_of_unsorted rfl)
    (by decide) hlog rfl (by decide) hordinary hunmarked .empty .empty
  exact ⟨by decide, merged, hmerged, hsame rfl⟩

/-! ### Marks of columns -/

/-- Columns that the table owns are not marked as sorted. -/
def Unsorted (t : Table) : Prop := ∀ columns, t.columns = .owned columns → columns.sorted = false

theorem unsorted_owned (h : t.columns = .owned columns) (hsorted : columns.sorted = false) : t.Unsorted := by
  intro columns' hcolumns
  rw [h] at hcolumns
  exact Slot.owned.inj hcolumns ▸ hsorted

theorem unsorted_shared (h : t.columns = .shared columns) : t.Unsorted := by
  intro columns' hcolumns
  rw [h] at hcolumns
  exact absurd hcolumns (by simp)

theorem unsorted_appendSlot (t : Table) (slot : Slot Column) : (t.appendSlot slot).Unsorted :=
  unsorted_owned rfl rfl

theorem unsorted_modify (h : columns.sorted = false) (i : Nat) (f : Column → Column) :
    (columns.modify i f).sorted = false := by
  unfold Entries.modify
  split
  · rfl
  · exact h

theorem owned_of_ownedColumns (h : t.ownedColumns = .ok columns) : t.columns = .owned columns := by
  unfold ownedColumns at h
  split at h
  · next hcolumns => rw [hcolumns, Except.ok.inj h]
  · exact absurd h (by simp)

theorem unsorted_dropColumn {name : String} (hu : t.Unsorted) (h : t.dropColumn name = .ok t') : t'.Unsorted := by
  obtain ⟨columns, hcolumns, h⟩ := bind_ok h
  have howned := owned_of_ownedColumns hcolumns
  split at h
  · obtain rfl := Except.ok.inj h
    exact unsorted_appendSlot t _
  · obtain rfl := Except.ok.inj h
    obtain ⟨_, _, hfill⟩ := refilled_withoutColumn howned name
    refine unsorted_owned (congrArg Table.columns hfill) ?_
    unfold without
    split <;> exact hu columns howned

theorem unsorted_renameColumn {old new : String} (hu : t.Unsorted) (h : t.renameColumn old new = .ok t') :
    t'.Unsorted := by
  obtain ⟨columns, hcolumns, h⟩ := bind_ok h
  split at h
  · obtain rfl := Except.ok.inj h
    exact unsorted_appendSlot t _
  · split at h
    · exact absurd h (by simp [throw, throwThe, MonadExceptOf.throw])
    · obtain rfl := Except.ok.inj h
      exact unsorted_owned rfl (unsorted_modify (hu columns (owned_of_ownedColumns hcolumns)) _ _)

theorem unsorted_alterColumn (h : t.alterColumn c = .ok t') : t'.Unsorted := by
  unfold alterColumn at h
  split at h
  · obtain ⟨_, _, h⟩ := bind_ok h
    obtain rfl := Except.ok.inj h
    exact unsorted_appendSlot t _
  · split at h
    · obtain ⟨columns, _, h⟩ := bind_ok h
      obtain rfl := Except.ok.inj h
      exact unsorted_owned rfl rfl
    · exact absurd h (by simp [throw, throwThe, MonadExceptOf.throw])

theorem unsorted_applyEntry (hu : t.Unsorted) (slot : Slot Column) : (t.applyEntry slot).Unsorted := by
  simp only [applyEntry]
  cases Entry.change? slot.value with
  | none => exact hu
  | some change =>
    cases change with
    | add => exact unsorted_appendSlot _ slot
    | alter => exact unsorted_appendSlot _ slot
    | drop => exact unsorted_appendSlot _ slot
    | rename =>
      dsimp only
      split <;> exact unsorted_appendSlot _ slot

theorem unsorted_accumulate {delta : Table} (hu : t.Unsorted) (h : t.accumulate delta = .ok t') : t'.Unsorted := by
  obtain ⟨columns, _, h⟩ := bind_ok h
  obtain rfl := Except.ok.inj h
  have hstart : Unsorted (if columns.isEmpty && delta.flags.isChange then t.insertFlags .change else t) := by
    split <;> exact hu
  generalize (if columns.isEmpty && delta.flags.isChange then t.insertFlags .change else t) = start at hstart ⊢
  generalize delta.entries.slots = slots
  induction slots generalizing start with
  | nil => exact hstart
  | cons slot rest ih => exact ih _ (unsorted_applyEntry hstart slot)

/-- **Whatever the operations make** of a table, columns of its own are not marked as sorted. -/
theorem Made.unsorted (h : t.Made) : t.Unsorted := by
  induction h with
  | plain name => exact unsorted_owned rfl rfl
  | ofType name typeName size => exact unsorted_owned rfl rfl
  | static name _ => exact unsorted_shared rfl
  | dropOf old => exact unsorted_owned rfl rfl
  | renameOf old new => exact unsorted_owned rfl rfl
  | relabel _ hcolumns ih =>
    unfold Unsorted at ih ⊢
    rwa [hcolumns]
  | addColumn _ h _ =>
    obtain ⟨_, _, h⟩ := bind_ok h
    obtain rfl := Except.ok.inj h
    exact unsorted_owned rfl rfl
  | alterColumn _ h _ => exact unsorted_alterColumn h
  | dropColumn _ h ih => exact unsorted_dropColumn ih h
  | renameColumn _ h ih => exact unsorted_renameColumn ih h
  | accumulate _ h ih => exact unsorted_accumulate ih h
  | @commit t clear set _ ih =>
    cases hcolumns : t.columns with
    | owned columns =>
      have hsettled := congrArg Table.columns (commit_refilled (.refl hcolumns) clear set)
      refine unsorted_owned hsettled ?_
      show (columns.sorted && _) = false
      rw [ih columns hcolumns, Bool.false_and]
    | shared columns =>
      have hkept : (t.commit clear set).columns = .shared columns := by
        rw [Table.commit, hcolumns]
        rfl
      exact unsorted_shared hkept
  | rewrite i f _ hcolumns ih => exact unsorted_owned rfl (unsorted_modify (ih _ hcolumns) i f)

end Table
end SchemaShift

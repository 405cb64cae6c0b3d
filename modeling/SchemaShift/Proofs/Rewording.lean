import SchemaShift.Column.Encoding
import SchemaShift.Settings.Encoding
import Mathlib.Logic.Relation
import Mathlib.Data.List.Nodup

/-! What is written reads back.

A record says the same in other words when its fields stand in another order, when a field
that its reader does not know is added, and when a null is left out where its reader takes
what may be absent; so does a record that holds another one when that is reworded
(`Data.Rewords`). What a reader looks up stays the same (`Data.Rewords.agrees`), so it reads
the same (`Data.Reads`): columns and settings that were written come back from any rewording
(`Data.reads_back`). -/
namespace SchemaShift
namespace Data

/-- What a reader of a record takes. -/
structure Shape where
  /-- The fields that it looks up. -/
  names : List String
  /-- The fields that may be null, or absent. -/
  nullable : List String
  /-- Other fields are refused. -/
  closed : Bool
  /-- The fields that hold records. -/
  inner : List (String × Shape)

/-- One change to the words of a record that leaves what it says. -/
inductive Rewords : Shape → Data → Data → Prop where
  | reorder {shape fields fields'} : fields.Perm fields' →
      Rewords shape (record fields) (record fields')
  /-- A field that is not known is added. -/
  | add {shape fields} (name : String) (value : Data) : shape.closed = false → name ∉ shape.names →
      Rewords shape (record fields) (record ((name, value) :: fields))
  /-- A field that is null is left out. -/
  | leaveOut {shape fields} (name : String) : name ∈ shape.nullable →
      Rewords shape (record ((name, null) :: fields)) (record fields)
  /-- A record in it is reworded. -/
  | within {shape fields part value value'} (name : String) : shape.inner.lookup name = some part →
      Rewords part value value' →
      Rewords shape (record ((name, value) :: fields)) (record ((name, value') :: fields))

/-- Any number of changes. -/
def Reworded (shape : Shape) : Data → Data → Prop := Relation.ReflTransGen (Rewords shape)

/-- No field that is read stands in the record twice, and where others are refused there is none. -/
inductive Fits : Shape → Data → Prop where
  | null {shape} : Fits shape null
  | record {shape fields} (single : ∀ name ∈ shape.names, (fields.map Prod.fst).count name ≤ 1)
      (known : shape.closed = true → ∀ field ∈ fields, field.1 ∈ shape.names)
      (inner : ∀ name ∈ shape.names, ∀ value part, (name, value) ∈ fields →
        shape.inner.lookup name = some part → Fits part value) : Fits shape (record fields)

/-! ### Looking up -/

section Fields

variable {fields fields' : List (String × Data)} {name : String} {value : Data}

theorem not_mem_of_count (h : (fields.map Prod.fst).count name = 0) : (name, value) ∉ fields := fun hmem =>
  List.count_eq_zero.mp h (List.mem_map_of_mem hmem)

/-- A field that stands in a record once is found there. -/
theorem lookup_eq_some_iff (h : (fields.map Prod.fst).count name ≤ 1) :
    fields.lookup name = some value ↔ (name, value) ∈ fields := by
  induction fields with
  | nil => simp
  | cons field rest ih =>
    obtain ⟨key, first⟩ := field
    rw [List.map_cons, List.count_cons] at h
    by_cases hkey : name = key
    · subst hkey
      rw [beq_self_eq_true, if_pos rfl] at h
      have habsent : (name, value) ∉ rest := not_mem_of_count (by omega)
      rw [List.lookup_cons_self, List.mem_cons, or_iff_left habsent]
      simp [eq_comm]
    · have hbeq : (name == key) = false := beq_eq_false_iff_ne.mpr hkey
      rw [List.lookup_cons, hbeq, List.mem_cons, ih (by omega)]
      simp [hkey]

theorem lookup_perm (hperm : fields.Perm fields') (h : (fields.map Prod.fst).count name ≤ 1) :
    fields'.lookup name = fields.lookup name := by
  have h' : (fields'.map Prod.fst).count name ≤ 1 := by
    rwa [← (hperm.map Prod.fst).count_eq]
  refine Option.ext fun value => ?_
  rw [lookup_eq_some_iff h', lookup_eq_some_iff h, hperm.mem_iff]

end Fields

/-- What is found in a field before a change and after it. -/
inductive Agrees (shape : Shape) (name : String) : Option Data → Option Data → Prop where
  | same (found : Option Data) : Agrees shape name found found
  | leftOut : name ∈ shape.nullable → Agrees shape name (some null) none
  | within {part fields fields'} : shape.inner.lookup name = some part → Fits part (record fields) →
      Rewords part (record fields) (record fields') →
      Agrees shape name (some (record fields)) (some (record fields'))

variable {shape : Shape} {d d' : Data} {fields : List (String × Data)}

/-- A change is made to a record, and leaves one. -/
theorem Rewords.records (h : Rewords shape d d') : ∃ fields fields', d = record fields ∧ d' = record fields' := by
  cases h <;> exact ⟨_, _, rfl, rfl⟩

/-- **A change keeps the record fit for its reader.** -/
theorem Rewords.fits (h : Rewords shape d d') (hd : Fits shape d) : Fits shape d' := by
  induction h with
  | reorder hperm =>
    obtain _ | ⟨hsingle, hknown, hinner⟩ := hd
    refine .record (fun name hname => ?_) (fun hclosed field hfield => ?_) fun name hname value part hmem => ?_
    · rw [← (hperm.map Prod.fst).count_eq]
      exact hsingle name hname
    · exact hknown hclosed field (hperm.mem_iff.mpr hfield)
    · exact hinner name hname value part (hperm.mem_iff.mpr hmem)
  | add added value hopen hadded =>
    obtain _ | ⟨hsingle, _, hinner⟩ := hd
    refine .record (fun name hname => ?_) (fun hclosed => ?_) fun name hname found part hmem => ?_
    · have hne : added ≠ name := fun heq => hadded (heq ▸ hname)
      rw [List.map_cons, List.count_cons_of_ne hne]
      exact hsingle name hname
    · rw [hopen] at hclosed
      exact absurd hclosed Bool.false_ne_true
    · refine hinner name hname found part ((List.mem_cons.mp hmem).resolve_left fun heq => ?_)
      exact hadded ((Prod.mk.inj heq).1 ▸ hname)
  | leaveOut gone _ =>
    obtain _ | ⟨hsingle, hknown, hinner⟩ := hd
    refine .record (fun name hname => ?_) (fun hclosed field hfield => ?_) fun name hname value part hmem => ?_
    · exact Nat.le_trans ((List.sublist_cons_self gone _).count_le name) (hsingle name hname)
    · exact hknown hclosed field (List.mem_cons_of_mem _ hfield)
    · exact hinner name hname value part (List.mem_cons_of_mem _ hmem)
  | within changed hpart _ ih =>
    obtain _ | ⟨hsingle, hknown, hinner⟩ := hd
    refine .record hsingle (fun hclosed field hfield => ?_) fun name hname found part hmem hpart' => ?_
    · rcases List.mem_cons.mp hfield with rfl | hfield
      · have hmem := hknown hclosed _ List.mem_cons_self
        exact hmem
      · exact hknown hclosed field (List.mem_cons_of_mem _ hfield)
    · rcases List.mem_cons.mp hmem with heq | hmem
      · obtain ⟨rfl, rfl⟩ := Prod.mk.inj heq
        obtain rfl := Option.some.inj (hpart.symm.trans hpart')
        exact ih (hinner name hname _ _ List.mem_cons_self hpart)
      · exact hinner name hname found part (List.mem_cons_of_mem _ hmem) hpart'

/-- **What a reader looks up says the same.** -/
theorem Rewords.agrees {fields' : List (String × Data)} (h : Rewords shape (record fields) (record fields'))
    (hfits : Fits shape (record fields)) {name : String} (hname : name ∈ shape.names) :
    Agrees shape name (fields.lookup name) (fields'.lookup name) := by
  obtain _ | ⟨hsingle, _, hinner⟩ := hfits
  cases h with
  | reorder hperm =>
    rw [lookup_perm hperm (hsingle name hname)]
    exact .same _
  | add added value _ hadded =>
    have hne : (name == added) = false := beq_eq_false_iff_ne.mpr fun heq => hadded (heq ▸ hname)
    rw [List.lookup_cons, hne]
    exact .same _
  | leaveOut gone hnull =>
    rw [List.lookup_cons]
    cases hgone : name == gone with
    | false => exact .same _
    | true =>
      obtain rfl := eq_of_beq hgone
      have hcount := hsingle name hname
      rw [List.map_cons, List.count_cons_self] at hcount
      -- The null was the only field of that name.
      have habsent : fields'.lookup name = none := by
        refine Option.eq_none_iff_forall_ne_some.mpr fun value hfound => ?_
        exact not_mem_of_count (by omega) ((lookup_eq_some_iff (by omega)).mp hfound)
      rw [habsent]
      exact .leftOut hnull
  | within changed hpart hchange =>
    rw [List.lookup_cons, List.lookup_cons]
    cases hchanged : name == changed with
    | false => exact .same _
    | true =>
      obtain rfl := eq_of_beq hchanged
      obtain ⟨fields, fields', rfl, rfl⟩ := hchange.records
      exact .within hpart (hinner name hname _ _ List.mem_cons_self hpart) hchange

/-! ### Readers -/

variable {α : Type} {name : String} {found found' : Option Data} {decode : Data → Option α}

theorem isSingle_iff {names : List String} :
    isSingle names fields = true ↔ ∀ name ∈ names, (fields.map Prod.fst).count name ≤ 1 := by
  simp only [isSingle, List.all_eq_true, decide_eq_true_eq]

/-- A record that fits is taken, -/
theorem Fits.fields? (h : Fits shape (.record fields)) :
    Data.fields? shape.names (.record fields) = some (shape.names.map fun name => fields.lookup name) := by
  obtain _ | ⟨hsingle, _, _⟩ := h
  exact if_pos (isSingle_iff.mpr hsingle)

/-- also where other fields are refused. -/
theorem Fits.closedFields? (form : ListForm) (h : Fits shape (.record fields)) (hclosed : shape.closed = true) :
    Data.closedFields? form shape.names (.record fields) = some (shape.names.map fun name => fields.lookup name) := by
  rw [← h.fields?]
  obtain _ | ⟨_, hknown, _⟩ := h
  refine if_pos (List.all_eq_true.mpr fun field hfield => ?_)
  exact List.contains_iff_mem.mpr (hknown hclosed field hfield)

/-- The reader of records of the shape sees no change to their words. -/
def Reads (shape : Shape) (decode : Data → Option α) : Prop :=
  ∀ d d', Rewords shape d d' → Fits shape d → decode d' = decode d

/-- It sees none where it takes the fields of every record that fits, and makes the same of fields in
which it finds the same. -/
theorem reads_of_take (take : Data → Option (List (Option Data))) {read : List (Option Data) → Option α}
    (htake : ∀ fields, Fits shape (record fields) →
      take (record fields) = some (shape.names.map fun name => fields.lookup name))
    (hdecode : ∀ fields, decode (record fields) = (take (record fields)).bind read)
    (h : ∀ fields fields' : List (String × Data),
      (∀ name ∈ shape.names, Agrees shape name (fields.lookup name) (fields'.lookup name)) →
      read (shape.names.map fun name => fields'.lookup name) = read (shape.names.map fun name => fields.lookup name)) :
    Reads shape decode := by
  intro d d' hchange hfits
  obtain ⟨fields, fields', rfl, rfl⟩ := hchange.records
  rw [hdecode, hdecode, htake fields hfits, htake fields' (hchange.fits hfits)]
  exact h fields fields' fun name hname => hchange.agrees hfits hname

/-- A field that may not be absent, and holds no record, is found as it was. -/
theorem Agrees.eq (h : Agrees shape name found found') (hnull : name ∉ shape.nullable)
    (hinner : shape.inner.lookup name = none) : found' = found := by
  cases h with
  | same => rfl
  | leftOut hmem => exact absurd hmem hnull
  | within hpart => simp [hinner] at hpart

/-- Null and nothing are the same to the reader of a field that may be absent. -/
theorem Agrees.optional (h : Agrees shape name found found')
    (hread : ∀ part, shape.inner.lookup name = some part → Reads part decode) :
    optional? decode found' = optional? decode found := by
  cases h with
  | same => rfl
  | leftOut => rfl
  | within hpart hfits hchange => exact congrArg (Option.map some) (hread _ hpart _ _ hchange hfits)

theorem Agrees.defaulted {default : α} (h : Agrees shape name found found') (hnull : name ∉ shape.nullable)
    (hread : ∀ part, shape.inner.lookup name = some part → Reads part decode) :
    defaulted? decode default found' = defaulted? decode default found := by
  cases h with
  | same => rfl
  | leftOut hmem => exact absurd hmem hnull
  | within hpart hfits hchange => exact hread _ hpart _ _ hchange hfits

/-- There is one shape for the records in a field. -/
theorem reads_part {part : Shape} (hpart : shape.inner.lookup name = some part) (hread : Reads part decode) :
    ∀ part', shape.inner.lookup name = some part' → Reads part' decode := by
  intro part' hpart'
  obtain rfl := Option.some.inj (hpart.symm.trans hpart')
  exact hread

/-- A record with just the fields that are read fits. -/
theorem fits_record (hnames : fields.map Prod.fst = shape.names) (hnodup : shape.names.Nodup)
    (hinner : ∀ entry ∈ shape.inner, ∀ value, fields.lookup entry.1 = some value → Fits entry.2 value) :
    Fits shape (record fields) := by
  have hsingle : ∀ name, (fields.map Prod.fst).count name ≤ 1 := by
    rw [hnames]
    exact List.nodup_iff_count_le_one.mp hnodup
  refine .record (fun name _ => hsingle name) (fun _ field hfield => ?_) fun name _ value part hmem hpart => ?_
  · rw [← hnames]
    exact List.mem_map_of_mem hfield
  · obtain ⟨front, back, hsplit, _⟩ := List.lookup_eq_some_iff.mp hpart
    have hentry : (name, part) ∈ shape.inner := by simp [hsplit]
    exact hinner _ hentry value ((lookup_eq_some_iff (hsingle name)).mpr hmem)

/-- **No number of changes is seen.** -/
theorem Reads.reworded (h : Reads shape decode) (hd : Fits shape d) (hrun : Reworded shape d d') :
    decode d' = decode d := by
  suffices hall : Fits shape d' ∧ decode d' = decode d from hall.2
  induction hrun with
  | refl => exact ⟨hd, rfl⟩
  | tail _ hchange ih => exact ⟨hchange.fits ih.1, (h _ _ hchange ih.1).trans ih.2⟩

/-! ### What is written -/

theorem natBelow?_of_lt {n bound : Nat} (h : n < bound) : natBelow? bound (int n) = some n := if_pos h

@[simp] theorem word32Of?_ofWord32 (n : UInt32) : (ofWord32 n).word32Of? = some n := by
  rw [ofWord32, word32Of?, natBelow?_of_lt n.toNat_lt_size, Option.map_some]
  exact congrArg some n.ofNat_toNat

@[simp] theorem word64Of?_ofWord64 (n : UInt64) : (ofWord64 n).word64Of? = some n := by
  rw [ofWord64, word64Of?, natBelow?_of_lt n.toNat_lt_size, Option.map_some]
  exact congrArg some n.ofNat_toNat

@[simp] theorem textsOf?_ofTexts (texts : List String) : (ofTexts texts).textsOf? = some texts := by
  show (texts.map text).mapM textOf? = some texts
  induction texts with
  | nil => rfl
  | cons first rest ih => simp [ih, textOf?]

theorem optional?_ofOption {encode : α → Data} (hback : ∀ a, decode (encode a) = some a)
    (hnull : ∀ a, encode a ≠ null) (value : Option α) :
    optional? decode (some (ofOption encode value)) = some value := by
  cases value with
  | none => rfl
  | some a =>
    show optional? decode (some (encode a)) = some (some a)
    unfold optional?
    split
    · next heq => cases heq
    · next heq => exact absurd (Option.some.inj heq) (hnull a)
    · next heq => rw [← Option.some.inj heq, hback, Option.map_some]

@[simp] theorem optional?_ofText (value : Option String) :
    optional? textOf? (some (ofOption text value)) = some value := by
  have hback : ∀ a, textOf? (text a) = some a := fun _ => rfl
  exact optional?_ofOption hback (fun _ h => nomatch h) value

end Data

namespace ForeignKey

open Data (Fits Reads)

def shape : Data.Shape :=
  { names := fieldNames, nullable := ["on_delete", "on_update"], closed := false, inner := [] }

theorem reads : Reads shape ofData? := by
  refine Data.reads_of_take (Data.fields? fieldNames) (fun _ hfits => hfits.fields?) (fun _ => rfl)
    fun fields fields' hagrees => ?_
  simp only [shape, fieldNames, List.map_cons, List.map_nil]
  rw [(hagrees "table" (by decide)).eq (by decide) rfl, (hagrees "column" (by decide)).eq (by decide) rfl,
    (hagrees "on_delete" (by decide)).optional nofun, (hagrees "on_update" (by decide)).optional nofun]

theorem fits_toData (key : ForeignKey) : Fits shape key.toData :=
  Data.fits_record rfl (by decide) nofun

@[simp] theorem ofData?_toData (key : ForeignKey) : ofData? key.toData = some key := by
  rw [ofData?, show Data.fields? fieldNames key.toData = _ from key.fits_toData.fields?]
  simp [shape, fieldNames, List.lookup_cons, Data.textOf?]

@[simp] theorem optional?_ofForeignKey (key : Option ForeignKey) :
    Data.optional? ofData? (some (Data.ofOption toData key)) = some key :=
  Data.optional?_ofOption ofData?_toData (fun _ h => nomatch h) key

end ForeignKey

namespace ColumnType

theorem ofData?_toData (type : ColumnType) : ofData? type.toData = some type := by
  cases type <;> rfl

theorem toData_ne_null (type : ColumnType) : type.toData ≠ .null := by
  cases type <;> nofun

@[simp] theorem optional?_ofColumnType (type : Option ColumnType) :
    Data.optional? ofData? (some (Data.ofOption toData type)) = some type :=
  Data.optional?_ofOption ofData?_toData toData_ne_null type

end ColumnType

namespace Flags

@[simp] theorem ofData?_toData (f : Flags) : ofData? f.toData = some f := by
  simp [ofData?, toData]

end Flags

namespace Column

open Data (Fits Reads)

def shape : Data.Shape :=
  { names := fieldNames
    nullable := ["name", "old_name", "column_type", "default_value", "check", "foreign"]
    closed := false
    inner := [("foreign", ForeignKey.shape)] }

theorem reads : Reads shape ofData? := by
  refine Data.reads_of_take (Data.fields? fieldNames) (fun _ hfits => hfits.fields?) (fun _ => rfl)
    fun fields fields' hagrees => ?_
  have hforeign := Data.reads_part (show shape.inner.lookup "foreign" = some _ from rfl) ForeignKey.reads
  simp only [shape, fieldNames, List.map_cons, List.map_nil]
  rw [(hagrees "name" (by decide)).optional nofun, (hagrees "old_name" (by decide)).optional nofun,
    (hagrees "column_type" (by decide)).optional nofun, (hagrees "offset" (by decide)).eq (by decide) rfl,
    (hagrees "flags" (by decide)).eq (by decide) rfl, (hagrees "size" (by decide)).eq (by decide) rfl,
    (hagrees "digits" (by decide)).eq (by decide) rfl, (hagrees "default_value" (by decide)).optional nofun,
    (hagrees "check" (by decide)).optional nofun, (hagrees "foreign" (by decide)).optional hforeign,
    (hagrees "constraints" (by decide)).eq (by decide) rfl]

theorem fits_toData (c : Column) : Fits shape c.toData := by
  refine Data.fits_record rfl (by decide) (List.forall_mem_singleton.mpr fun value hvalue => ?_)
  obtain rfl := Option.some.inj hvalue
  cases c.foreign with
  | none => exact .null
  | some key => exact key.fits_toData

@[simp] theorem ofData?_toData (c : Column) : ofData? c.toData = some c := by
  rw [ofData?, show Data.fields? fieldNames c.toData = _ from c.fits_toData.fields?]
  simp [shape, fieldNames, List.lookup_cons]

end Column

namespace Settings

open Data (Fits Reads ListForm)

namespace RelationSection

def shape : Data.Shape := { names := fieldNames, nullable := [], closed := true, inner := [] }

theorem reads (form : ListForm) : Reads shape (ofData? form) := by
  refine Data.reads_of_take (Data.closedFields? form fieldNames) (fun _ hfits => hfits.closedFields? form rfl)
    (fun _ => rfl) fun fields fields' hagrees => ?_
  simp only [shape, fieldNames, List.map_cons, List.map_nil]
  rw [(hagrees "chunk_size" (by decide)).eq nofun rfl, (hagrees "capacity" (by decide)).eq nofun rfl]

theorem fits_toData (s : RelationSection) : Fits shape s.toData := Data.fits_record rfl (by decide) nofun

@[simp] theorem ofData?_toData (form : ListForm) (s : RelationSection) : ofData? form s.toData = some s := by
  rw [ofData?, show Data.closedFields? form fieldNames s.toData = _ from s.fits_toData.closedFields? form rfl]
  simp [shape, fieldNames, List.lookup_cons, Data.defaulted?]

end RelationSection

namespace MigrationSection

def shape : Data.Shape := { names := fieldNames, nullable := [], closed := true, inner := [] }

theorem reads (form : ListForm) : Reads shape (ofData? form) := by
  refine Data.reads_of_take (Data.closedFields? form fieldNames) (fun _ hfits => hfits.closedFields? form rfl)
    (fun _ => rfl) fun fields fields' hagrees => ?_
  simp only [shape, fieldNames, List.map_cons, List.map_nil]
  rw [(hagrees "initial_version" (by decide)).eq nofun rfl, (hagrees "strict_foreign" (by decide)).eq nofun rfl,
    (hagrees "clear_flags" (by decide)).eq nofun rfl, (hagrees "set_flags" (by decide)).eq nofun rfl]

theorem fits_toData (s : MigrationSection) : Fits shape s.toData := Data.fits_record rfl (by decide) nofun

@[simp] theorem ofData?_toData (form : ListForm) (s : MigrationSection) : ofData? form s.toData = some s := by
  rw [ofData?, show Data.closedFields? form fieldNames s.toData = _ from s.fits_toData.closedFields? form rfl]
  simp [shape, fieldNames, List.lookup_cons, Data.defaulted?, Data.boolOf?]

end MigrationSection

namespace DebugSection

def shape : Data.Shape := { names := fieldNames, nullable := fieldNames, closed := true, inner := [] }

/-- A record leaves no field out, whatever is absent from it. -/
theorem ofData?_record (form : ListForm) (fields : List (String × Data)) :
    ofData? form (.record fields) = (Data.closedFields? form fieldNames (.record fields)).bind fun
      | [logLevel, logFormat] => do
        return {
          logLevel := ← Data.optional? Data.textOf? logLevel
          logFormat := ← Data.optional? Data.textOf? logFormat }
      | _ => none := rfl

theorem reads (form : ListForm) : Reads shape (ofData? form) := by
  refine Data.reads_of_take (Data.closedFields? form fieldNames) (fun _ hfits => hfits.closedFields? form rfl)
    (fun _ => rfl) fun fields fields' hagrees => ?_
  simp only [shape, fieldNames, List.map_cons, List.map_nil]
  rw [(hagrees "log_level" (by decide)).optional nofun, (hagrees "log_format" (by decide)).optional nofun]

theorem fits_toData (s : DebugSection) : Fits shape s.toData := Data.fits_record rfl (by decide) nofun

@[simp] theorem ofData?_toData (form : ListForm) (s : DebugSection) : ofData? form s.toData = some s := by
  rw [show ofData? form s.toData = _ from ofData?_record form _,
    show Data.closedFields? form fieldNames _ = _ from s.fits_toData.closedFields? form rfl]
  simp [shape, fieldNames, List.lookup_cons]

end DebugSection

def shape : Data.Shape :=
  { names := fieldNames
    nullable := []
    closed := true
    inner := [("relation", RelationSection.shape), ("migration", MigrationSection.shape),
      ("debug", DebugSection.shape)] }

theorem reads (form : ListForm) : Reads shape (ofData? form) := by
  refine Data.reads_of_take (Data.closedFields? form fieldNames) (fun _ hfits => hfits.closedFields? form rfl)
    (fun _ => rfl) fun fields fields' hagrees => ?_
  simp only [shape, fieldNames, List.map_cons, List.map_nil]
  rw [(hagrees "relation" (by decide)).defaulted nofun (Data.reads_part rfl (RelationSection.reads form)),
    (hagrees "migration" (by decide)).defaulted nofun (Data.reads_part rfl (MigrationSection.reads form)),
    (hagrees "debug" (by decide)).defaulted nofun (Data.reads_part rfl (DebugSection.reads form))]

theorem fits_toData (s : Settings) : Fits shape s.toData := by
  refine Data.fits_record rfl (by decide) fun entry hentry value hvalue => ?_
  simp only [shape, List.mem_cons, List.not_mem_nil, or_false] at hentry
  rcases hentry with rfl | rfl | rfl
  · obtain rfl := Option.some.inj hvalue
    exact s.relation.fits_toData
  · obtain rfl := Option.some.inj hvalue
    exact s.migration.fits_toData
  · obtain rfl := Option.some.inj hvalue
    exact s.debug.fits_toData

@[simp] theorem ofData?_toData (form : ListForm) (s : Settings) : ofData? form s.toData = some s := by
  rw [ofData?, show Data.closedFields? form fieldNames s.toData = _ from s.fits_toData.closedFields? form rfl]
  simp [shape, fieldNames, List.lookup_cons, Data.defaulted?]

end Settings

namespace Data

/-- **What is written reads back**, in other words, too. -/
theorem reads_back :
    (∀ (c : Column) (d : Data), Reworded Column.shape c.toData d → Column.ofData? d = some c) ∧
    ∀ (form : ListForm) (s : Settings) (d : Data), Reworded Settings.shape s.toData d →
      Settings.ofData? form d = some s := by
  refine ⟨fun c d hd => ?_, fun form s d hd => ?_⟩
  · rw [Column.reads.reworded c.fits_toData hd, Column.ofData?_toData]
  · rw [(Settings.reads form).reworded s.fits_toData hd, Settings.ofData?_toData]

/-- A column of a backend type, with the greatest offset and flags without a name. -/
def userId : Column :=
  { name := some "user_id", columnType := some (.custom "Int"), offset := 18446744073709551615
    flags := ⟨4294967295⟩, foreign := some { table := "users", column := "id", onDelete := some "CASCADE" }
    constraints := ["fk_user"] }

/-- The same in other words: no null is left but one, and there is a remark. -/
def userIdReworded : Data :=
  record [("remark", .other), ("digits", int 0), ("size", int 0), ("flags", int 4294967295),
    ("offset", int 18446744073709551615), ("column_type", record [("Custom", text "Int")]), ("old_name", null),
    ("name", text "user_id"),
    ("foreign", record [("on_delete", text "CASCADE"), ("column", text "id"), ("table", text "users")]),
    ("constraints", list [text "fk_user"])]

theorem reads_back_userId : Reworded Column.shape userId.toData userIdReworded ∧
    Column.ofData? userIdReworded = some userId := by
  have hforeign : Column.shape.inner.lookup "foreign" = some ForeignKey.shape := rfl
  have hreworded : Reworded Column.shape userId.toData userIdReworded := by
    refine .head (.reorder (List.reverse_perm _).symm) ?_
    refine .head (.reorder (.swap _ _ _)) ?_
    refine .head (.within "foreign" hforeign (.reorder (List.reverse_perm _).symm)) ?_
    refine .head (.within "foreign" hforeign (.leaveOut "on_update" (by decide))) ?_
    refine .head (.reorder (@List.perm_append_comm _ [_, _] _)) ?_
    refine .head (.leaveOut "check" (by decide)) ?_
    refine .head (.leaveOut "default_value" (by decide)) ?_
    exact .single (.add "remark" .other rfl (by decide))
  exact ⟨hreworded, reads_back.1 userId userIdReworded hreworded⟩

end Data
end SchemaShift

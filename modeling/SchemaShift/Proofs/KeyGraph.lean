import SchemaShift.Proofs.Circles
import SchemaShift.Proofs.Rearrange
import SchemaShift.Proofs.TableLog

/-! The graph of foreign keys.

In a schema of different names (`Schema.WellNamed`) a foreign key column is a
reference of its table, and the references lead where the keys do: what the
ranking tells about positions it tells about tables (`WellNamed.leads_iff`,
`WellNamed.reaches_iff`). -/
namespace SchemaShift

/-- The foreign key in column `c` of table `a` names table `b`. -/
structure Table.KeyTo (a : Table) (c : Column) (b : Table) : Prop where
  column : c ∈ a.foreignColumns
  named : c.name ≠ none
  target : c.foreign.map ForeignKey.table = b.name

namespace Schema

open Ranking (Leads Reaches IntoCircle referencesOf)

/-- A foreign key leads from the live table `a` to the live table `b`. -/
def Joins (s : Schema) (a b : Table) : Prop :=
  a ∈ s.tables.values ∧ b ∈ s.tables.values ∧ Entry.isLive a = true ∧ Entry.isLive b = true ∧
    ∃ c, a.KeyTo c b

/-- Foreign keys lead from table `a` to table `b`, or they are one table. -/
def KeysReach (s : Schema) : Table → Table → Prop := Relation.ReflTransGen s.Joins

/-- Some table that table `a` reaches takes part in a circle of keys. -/
def KeysCircle (s : Schema) (a : Table) : Prop :=
  ∃ b, s.KeysReach a b ∧ Relation.TransGen s.Joins b b

/-- The tables have different names, their columns too, and they list all their foreign keys. -/
structure WellNamed (s : Schema) : Prop where
  live : ∀ t ∈ s.tables.values, Entry.isLive t = true
  ordered : s.tables.Ordered
  listed : ∀ t ∈ s.tables.values, t.foreigns = t.foreignColumns.filterMap Column.name
  columns : ∀ t ∈ s.tables.values, t.entries.Ordered ∧ t.entries.Distinct
  names : (s.tables.values.filterMap Table.name).Nodup

theorem Committed.wellNamed {s : Schema} (h : s.Committed)
    (hmarks : ∀ t ∈ s.tables.values, t.entries.Ordered)
    (hnames : (s.tables.values.filterMap Table.name).Nodup)
    (hcolumns : ∀ t ∈ s.tables.values, t.entries.Distinct) : s.WellNamed where
  live := h.live
  ordered := h.ordered
  listed t ht := (congrArg Table.foreigns (h.tables t ht).2).symm
  columns t ht := ⟨hmarks t ht, hcolumns t ht⟩
  names := hnames

variable {s : Schema}

theorem mem_byName {t : Table} : t ∈ s.byName.values ↔ t ∈ s.tables.values :=
  ((stableSort_perm _ _).map Slot.value).mem_iff

theorem mem_of_get? {u : Nat} {t : Table} (h : s.byName.get? u = some t) : t ∈ s.tables.values := by
  apply mem_byName.mp
  rw [← Entries.getElem?_values] at h
  exact List.mem_of_getElem? h

theorem exists_get? {t : Table} (h : t ∈ s.tables.values) : ∃ u, s.byName.get? u = some t := by
  obtain ⟨u, hu⟩ := List.getElem?_of_mem (mem_byName.mpr h)
  exact ⟨u, by rwa [Entries.getElem?_values] at hu⟩

theorem referencesOf_eq {u : Nat} {a : Table} (ha : s.byName.get? u = some a) :
    referencesOf (allReferences s.byName) u = references s.byName a := referencesOf_map _ ha

/-- References start at a table and lead to a table. -/
theorem get?_of_leads {u v : Nat} (huv : Leads (allReferences s.byName) u v) :
    ∃ a b, s.byName.get? u = some a ∧ s.byName.get? v = some b := by
  obtain ⟨r, hr, htarget⟩ := huv
  obtain ⟨a, ha, hr⟩ := get?_of_reference hr
  obtain ⟨b, hb, _⟩ := target_live hr htarget
  exact ⟨a, b, ha, hb⟩

theorem Joins.named {a b : Table} (hab : s.Joins a b) : b.name ≠ none := by
  obtain ⟨_, _, _, _, c, hkey⟩ := hab
  obtain ⟨_, hforeign⟩ := List.mem_filter.mp hkey.column
  obtain ⟨key, hkey'⟩ := Option.isSome_iff_exists.mp (Bool.and_eq_true_iff.mp hforeign).2
  rw [← hkey.target, hkey']
  exact Option.some_ne_none _

namespace WellNamed

theorem distinct (h : s.WellNamed) : s.byName.Distinct := by
  have hall : s.byName.values.filter Entry.isLive = s.byName.values :=
    List.filter_eq_self.mpr fun t ht => h.live t (mem_byName.mp ht)
  rw [Entries.Distinct, hall]
  exact ((((stableSort_perm _ _).map Slot.value).filterMap Table.name).nodup_iff).mpr h.names

/-- The position of a table is that of its name. -/
theorem index (h : s.WellNamed) {u v : Nat} {a b : Table} (hu : s.byName.get? u = some a)
    (hv : s.byName.get? v = some b) (hname : a.name = b.name) (hb : b.name ≠ none) : u = v := by
  obtain ⟨name, hb⟩ := Option.ne_none_iff_exists'.mp hb
  exact h.distinct.index hu hv (h.live a (mem_of_get? hu)) (h.live b (mem_of_get? hv)) (hname.trans hb) hb

/-- A name finds its table. -/
theorem findLive?_iff (h : s.WellNamed) {name : String} {v : Nat} :
    s.byName.findLive? name = some v ↔ ∃ b, s.byName.get? v = some b ∧ b.name = some name := by
  rw [h.distinct.findLive?_iff (Entries.ordered_sort _)]
  constructor
  · rintro ⟨b, hb, hname, _⟩
    exact ⟨b, hb, hname⟩
  · rintro ⟨b, hb, hname⟩
    exact ⟨b, hb, hname, h.live b (mem_of_get? hb)⟩

/-- The references of a table are its foreign key columns. -/
theorem mem_references_iff (h : s.WellNamed) {a : Table} (ha : a ∈ s.tables.values) {r : Reference} :
    r ∈ references s.byName a ↔ ∃ c ∈ a.foreignColumns, referenceOf s.byName c = some r := by
  rw [mem_references]
  constructor
  · rintro ⟨column, _, c, hc, hr⟩
    obtain ⟨hmem, _, hlive⟩ := (h.columns a ha).2.live?_iff (h.columns a ha).1 |>.mp hc
    obtain ⟨key, hkey, _⟩ := referenceOf_some hr
    refine ⟨c, List.mem_filter.mpr ⟨hmem, ?_⟩, hr⟩
    rw [Column.isForeign, hlive, Column.hasForeign, hkey]
    rfl
  · rintro ⟨c, hc, hr⟩
    obtain ⟨key, _, hname, _⟩ := referenceOf_some hr
    obtain ⟨hmem, hforeign⟩ := List.mem_filter.mp hc
    have hlive : Entry.isLive c = true := (Bool.and_eq_true_iff.mp hforeign).1
    refine ⟨r.column, ?_, c, ?_, hr⟩
    · rw [h.listed a ha]
      exact List.mem_filterMap.mpr ⟨c, hc, hname⟩
    · exact ((h.columns a ha).2.live?_iff (h.columns a ha).1).mpr ⟨hmem, hname, hlive⟩

/-- A key to table `b` is a reference to its position. -/
theorem keyTo_iff (h : s.WellNamed) {v : Nat} {a b : Table} (ha : a ∈ s.tables.values)
    (hb : s.byName.get? v = some b) {c : Column} : a.KeyTo c b ↔
      ∃ r ∈ references s.byName a, c ∈ a.foreignColumns ∧ referenceOf s.byName c = some r ∧
        r.target = some v := by
  constructor
  · intro hkey
    obtain ⟨column, hcolumn⟩ := Option.ne_none_iff_exists'.mp hkey.named
    obtain ⟨key, hforeign⟩ : ∃ key, c.foreign = some key := by
      obtain ⟨_, hforeign⟩ := List.mem_filter.mp hkey.column
      exact Option.isSome_iff_exists.mp (Bool.and_eq_true_iff.mp hforeign).2
    have hname : b.name = some key.table := by rw [← hkey.target, hforeign, Option.map_some]
    have hfind := h.findLive?_iff.mpr ⟨b, hb, hname⟩
    have hr : referenceOf s.byName c = some ⟨key.table, some v, column, c.isConstrained⟩ := by
      simp only [referenceOf, hforeign, hcolumn, hfind]
    exact ⟨_, (h.mem_references_iff ha).mpr ⟨c, hkey.column, hr⟩, hkey.column, hr, rfl⟩
  · rintro ⟨r, _, hc, hr, htarget⟩
    obtain ⟨key, hforeign, hcolumn, heq⟩ := referenceOf_some hr
    rw [heq] at htarget
    obtain ⟨b', hb', hname⟩ := h.findLive?_iff.mp htarget
    obtain rfl := Option.some.inj (hb'.symm.trans hb)
    refine ⟨hc, by simp [hcolumn], ?_⟩
    rw [hforeign, Option.map_some, hname]

/-- Every reference that leads somewhere is a key. -/
theorem keyTo_of_reference (h : s.WellNamed) {v : Nat} {a b : Table} (ha : a ∈ s.tables.values)
    (hb : s.byName.get? v = some b) {r : Reference} (hr : r ∈ references s.byName a)
    (htarget : r.target = some v) : ∃ c, a.KeyTo c b ∧ referenceOf s.byName c = some r := by
  obtain ⟨c, hc, hreference⟩ := (h.mem_references_iff ha).mp hr
  exact ⟨c, (h.keyTo_iff ha hb).mpr ⟨r, hr, hc, hreference, htarget⟩, hreference⟩

/-! ### Positions and tables -/

theorem leads_iff (h : s.WellNamed) {u v : Nat} {a b : Table} (ha : s.byName.get? u = some a)
    (hb : s.byName.get? v = some b) : Leads (allReferences s.byName) u v ↔ s.Joins a b := by
  have hmem := mem_of_get? ha
  have hmem' := mem_of_get? hb
  rw [Leads, referencesOf_eq ha]
  constructor
  · rintro ⟨r, hr, htarget⟩
    obtain ⟨c, hkey, _⟩ := h.keyTo_of_reference hmem hb hr htarget
    exact ⟨hmem, hmem', h.live a hmem, h.live b hmem', c, hkey⟩
  · rintro ⟨_, _, _, _, c, hkey⟩
    obtain ⟨r, hr, _, _, htarget⟩ := (h.keyTo_iff hmem hb).mp hkey
    exact ⟨r, hr, htarget⟩

/-- Where references lead, keys lead from table to table. -/
theorem transGen_joins (h : s.WellNamed) {u v : Nat} {a b : Table} (ha : s.byName.get? u = some a)
    (hb : s.byName.get? v = some b) (huv : Relation.TransGen (Leads (allReferences s.byName)) u v) :
    Relation.TransGen s.Joins a b := by
  induction huv generalizing b with
  | single huv => exact .single ((h.leads_iff ha hb).mp huv)
  | tail _ hwv ih =>
    obtain ⟨c, _, hc, _⟩ := get?_of_leads hwv
    exact (ih hc).tail ((h.leads_iff hc hb).mp hwv)

/-- Where keys lead, references lead from position to position. -/
theorem transGen_leads (h : s.WellNamed) {u v : Nat} {a b : Table} (ha : s.byName.get? u = some a)
    (hb : s.byName.get? v = some b) (hab : Relation.TransGen s.Joins a b) :
    Relation.TransGen (Leads (allReferences s.byName)) u v := by
  induction hab generalizing v with
  | single hab => exact .single ((h.leads_iff ha hb).mpr hab)
  | tail _ hcb ih =>
    obtain ⟨w, hw⟩ := exists_get? hcb.1
    exact (ih hw).tail ((h.leads_iff hw hb).mpr hcb)

theorem transGen_iff (h : s.WellNamed) {u v : Nat} {a b : Table} (ha : s.byName.get? u = some a)
    (hb : s.byName.get? v = some b) :
    Relation.TransGen (Leads (allReferences s.byName)) u v ↔ Relation.TransGen s.Joins a b :=
  ⟨h.transGen_joins ha hb, h.transGen_leads ha hb⟩

theorem reaches_iff (h : s.WellNamed) {u v : Nat} {a b : Table} (ha : s.byName.get? u = some a)
    (hb : s.byName.get? v = some b) (hname : b.name ≠ none) :
    Reaches (allReferences s.byName) u v ↔ s.KeysReach a b := by
  rw [Reaches, KeysReach, Relation.reflTransGen_iff_eq_or_transGen,
    Relation.reflTransGen_iff_eq_or_transGen, h.transGen_iff ha hb]
  refine or_congr_left ⟨fun heq => ?_, fun heq => ?_⟩
  · subst heq
    exact Option.some.inj (hb.symm.trans ha)
  · exact h.index hb ha (congrArg Table.name heq) (heq ▸ hname)

theorem intoCircle_iff (h : s.WellNamed) {u : Nat} {a : Table} (ha : s.byName.get? u = some a) :
    IntoCircle (allReferences s.byName) u ↔ s.KeysCircle a := by
  constructor
  · rintro ⟨v, huv, hvv⟩
    obtain ⟨w, hvw, _⟩ := Relation.TransGen.head'_iff.mp hvv
    obtain ⟨b, _, hb, _⟩ := get?_of_leads hvw
    have hbb := (h.transGen_iff hb hb).mp hvv
    obtain ⟨c, _, hcb⟩ := Relation.TransGen.tail'_iff.mp hbb
    exact ⟨b, (h.reaches_iff ha hb (hcb.named)).mp huv, hbb⟩
  · rintro ⟨b, hab, hbb⟩
    obtain ⟨c, hbc, _⟩ := Relation.TransGen.head'_iff.mp hbb
    obtain ⟨d, _, hdb⟩ := Relation.TransGen.tail'_iff.mp hbb
    obtain ⟨v, hb⟩ := exists_get? hbc.1
    exact ⟨v, (h.reaches_iff ha hb (hdb.named)).mpr hab, (h.transGen_iff hb hb).mpr hbb⟩

/-! ### Keys that stay listed -/

/-- A column of the table has the name. -/
theorem column_unique (h : s.WellNamed) {a : Table} (ha : a ∈ s.tables.values) {c c' : Column}
    (hc : c ∈ a.foreignColumns) (hc' : c' ∈ a.foreignColumns) {column : String}
    (hname : c.name = some column) (hname' : c'.name = some column) : c = c' := by
  obtain ⟨hordered, hdistinct⟩ := h.columns a ha
  have hfind : ∀ {c}, c ∈ a.foreignColumns → c.name = some column →
      a.entries.live? column = some c := by
    intro c hc hname
    obtain ⟨hmem, hforeign⟩ := List.mem_filter.mp hc
    exact (hdistinct.live?_iff hordered).mpr ⟨hmem, hname, (Bool.and_eq_true_iff.mp hforeign).1⟩
  exact Option.some.inj ((hfind hc hname).symm.trans (hfind hc' hname'))

/-- A key is a foreign key as the ranking reads it. -/
theorem refers (h : s.WellNamed) {u v : Nat} {a b : Table} (ha : s.byName.get? u = some a)
    (hb : s.byName.get? v = some b) {c : Column} (hkey : a.KeyTo c b) :
    ∃ column, c.name = some column ∧ s.Refers u column v := by
  have hmem := mem_of_get? ha
  obtain ⟨r, hr, hc, hreference, htarget⟩ := (h.keyTo_iff hmem hb).mp hkey
  obtain ⟨key, hforeign, hname, heq⟩ := referenceOf_some hreference
  obtain ⟨hvalue, hisForeign⟩ := List.mem_filter.mp hc
  have hlive : Entry.isLive c = true := (Bool.and_eq_true_iff.mp hisForeign).1
  refine ⟨r.column, hname, a, c, key, ha, h.live a hmem, ?_, ?_, hforeign, ?_⟩
  · rw [h.listed a hmem]
    exact List.mem_filterMap.mpr ⟨c, hc, hname⟩
  · exact ((h.columns a hmem).2.live?_iff (h.columns a hmem).1).mpr ⟨hvalue, hname, hlive⟩
  · rw [heq] at htarget
    exact htarget

/-- **A key that stays listed leads into a circle.** -/
theorem keysCircle_of_retained (h : s.WellNamed) {u : Nat} {a b : Table} (ha : s.byName.get? u = some a)
    (hb : b ∈ s.tables.values) {c : Column} (hkey : a.KeyTo c b) {column : String}
    (hname : c.name = some column) (hkept : column ∈ (s.markAt u).retained) : s.KeysCircle b := by
  have hmem := mem_of_get? ha
  obtain ⟨v, hv⟩ := exists_get? hb
  have hturn := Ranking.rankAll_turns (within_length s.byName) livePositions_lt u
  rw [markAt, marks_eq_rankAll] at hkept
  obtain ⟨r, hr, rfl, hinto⟩ := hturn column hkept
  rw [referencesOf_map _ ha] at hr
  obtain ⟨c', hc', hreference'⟩ := (h.mem_references_iff hmem).mp hr
  obtain ⟨_, _, hname', _⟩ := referenceOf_some hreference'
  obtain ⟨r', _, hc, hreference, htarget⟩ := (h.keyTo_iff hmem hv).mp hkey
  obtain rfl := h.column_unique hmem hc hc' hname hname'
  obtain rfl := Option.some.inj (hreference.symm.trans hreference')
  exact (h.intoCircle_iff hv).mp (hinto v htarget)

end WellNamed
end Schema
end SchemaShift

import SchemaShift.Schema.Arrange
import SchemaShift.Proofs.FinishOrder
import SchemaShift.Proofs.Flags
import SchemaShift.Proofs.Lookup

/-! The creation order is sound.

Tables are told apart by their position among the tables sorted by name
(`Schema.byName`), as nothing keeps two of them from having one name.
`Schema.Refers` says which foreign key leads from one to another. -/
namespace SchemaShift
namespace Schema

open Ranking (Marks markOf referencesOf)

/-- The tables sorted by name. -/
def byName (s : Schema) : Entries Table := s.tables.sort

theorem byName_perm (s : Schema) : s.byName.values.Perm s.tables.values := (stableSort_perm _ _).map Slot.value

/-- The live table `u` lists a foreign key column that leads to the live table
`v`; both are positions by name. -/
def Refers (s : Schema) (u : Nat) (column : String) (v : Nat) : Prop :=
  ∃ t c key, s.byName.get? u = some t ∧ Entry.isLive t = true ∧ column ∈ t.foreigns ∧
    t.column? column = some c ∧ c.foreign = some key ∧ s.byName.findLive? key.table = some v

/-! ### The references of a schema -/

theorem mem_references {tables : Entries Table} {t : Table} {r : Reference} :
    r ∈ references tables t ↔
      ∃ column ∈ t.foreigns, ∃ c, t.column? column = some c ∧ referenceOf tables c = some r := by
  rw [references, mem_stableSort, List.mem_filterMap]
  constructor
  · rintro ⟨c, hc, hr⟩
    obtain ⟨column, hcolumn, hfind⟩ := List.mem_filterMap.mp hc
    exact ⟨column, hcolumn, c, hfind, hr⟩
  · rintro ⟨column, hcolumn, c, hfind, hr⟩
    exact ⟨c, List.mem_filterMap.mpr ⟨column, hcolumn, hfind⟩, hr⟩

theorem referenceOf_some {tables : Entries Table} {c : Column} {r : Reference}
    (h : referenceOf tables c = some r) : ∃ key, c.foreign = some key ∧ c.name = some r.column ∧
      r = ⟨key.table, tables.findLive? key.table, r.column, c.isConstrained⟩ := by
  unfold referenceOf at h
  split at h
  · next key column hkey hcolumn =>
    obtain rfl := Option.some.inj h
    exact ⟨key, hkey, hcolumn, rfl⟩
  · exact absurd h (by simp)

theorem get?_lt {tables : Entries Table} {i : Nat} {t : Table} (h : tables.get? i = some t) :
    i < tables.length := by
  obtain ⟨slot, hslot, _⟩ := Option.map_eq_some_iff.mp h
  exact (List.getElem?_eq_some_iff.mp hslot).1

theorem referencesOf_map {tables : Entries Table} (f : Table → List Reference) {i : Nat} {t : Table}
    (h : tables.get? i = some t) : referencesOf (tables.values.map f) i = f t := by
  rw [referencesOf, Entries.values, List.getElem?_map, List.getElem?_map]
  show (Option.map f (tables.get? i)).getD [] = f t
  rw [h]
  rfl

/-- A reference leads to a live table, if anywhere. -/
theorem target_live {tables : Entries Table} {t : Table} {r : Reference} {target : Nat}
    (hr : r ∈ references tables t) (htarget : r.target = some target) :
    ∃ e, tables.get? target = some e ∧ Entry.isLive e = true := by
  obtain ⟨_, _, c, _, hc⟩ := mem_references.mp hr
  obtain ⟨key, _, _, hr⟩ := referenceOf_some hc
  rw [hr] at htarget
  obtain ⟨e, he, _, hlive⟩ := Entries.findLive?_some htarget
  exact ⟨e, he, hlive⟩

/-- A reference at a position is one of the table there. -/
theorem get?_of_reference {tables : Entries Table} {u : Nat} {r : Reference}
    (hr : r ∈ referencesOf (tables.values.map (references tables)) u) :
    ∃ t, tables.get? u = some t ∧ r ∈ references tables t := by
  cases hu : tables.get? u with
  | none =>
    have hnone : (tables.values.map (references tables))[u]? = none := by
      rw [List.getElem?_map, Entries.getElem?_values, hu, Option.map_none]
    rw [referencesOf, hnone] at hr
    exact absurd hr List.not_mem_nil
  | some t =>
    rw [referencesOf_map _ hu] at hr
    exact ⟨t, rfl, hr⟩

/-- Every reference leads to a table that there is. -/
theorem within_references (tables : Entries Table) :
    Ranking.Within tables.length (tables.values.map (references tables)) := by
  intro i r hr target htarget
  obtain ⟨t, _, hr⟩ := get?_of_reference hr
  obtain ⟨e, he, _⟩ := target_live hr htarget
  exact get?_lt he

/-- A key that leads somewhere is a reference of its table. -/
theorem Refers.reference {s : Schema} {u v : Nat} {column : String} (h : s.Refers u column v) :
    ∃ r ∈ referencesOf (s.byName.values.map (references s.byName)) u,
      r.column = column ∧ r.target = some v := by
  obtain ⟨t, c, key, ht, _, hlisted, hfind, hkey, hv⟩ := h
  have hname : c.name = some column := (Entries.live?_some hfind).1
  refine ⟨⟨key.table, some v, column, c.isConstrained⟩, ?_, rfl, rfl⟩
  rw [referencesOf_map _ ht]
  refine mem_references.mpr ⟨column, hlisted, c, hfind, ?_⟩
  simp only [referenceOf, hkey, hname, hv]

theorem Refers.live {s : Schema} {u v : Nat} {column : String} (h : s.Refers u column v) :
    ∃ t, s.byName.get? u = some t ∧ Entry.isLive t = true :=
  let ⟨t, _, _, ht, hlive, _⟩ := h
  ⟨t, ht, hlive⟩

theorem Refers.target_live {s : Schema} {u v : Nat} {column : String} (h : s.Refers u column v) :
    ∃ t, s.byName.get? v = some t ∧ Entry.isLive t = true :=
  let ⟨_, _, _, _, _, _, _, _, hv⟩ := h
  let ⟨t, ht, _, hlive⟩ := Entries.findLive?_some hv
  ⟨t, ht, hlive⟩

/-! ### The tables that are left -/

/-- What the ranking found about the table at a position by name. -/
def markAt (s : Schema) (u : Nat) : Mark := markOf (marks s.byName) u

/-- The table as the arrangement leaves it. -/
def arranged (s : Schema) (u : Nat) (t : Table) : Table :=
  if Entry.isLive t then ranked (s.markAt u) t else t

@[simp] theorem name_arranged (s : Schema) (u : Nat) (t : Table) : (s.arranged u t).name = t.name := by
  unfold arranged
  split <;> rfl

@[simp] theorem isLive_arranged (s : Schema) (u : Nat) (t : Table) :
    Entry.isLive (s.arranged u t) = Entry.isLive t := by
  unfold arranged
  split <;> rfl

theorem arranged_of_live {s : Schema} {t : Table} (h : Entry.isLive t = true) (u : Nat) :
    s.arranged u t = ranked (s.markAt u) t := if_pos h

theorem get?_storeMarks (s : Schema) (u : Nat) :
    (storeMarks s.byName (marks s.byName)).get? u = (s.byName.get? u).map (s.arranged u) := by
  rw [Entries.get?, Entries.get?, storeMarks, List.getElem?_mapIdx, Option.map_map, Option.map_map]
  refine congrArg (Option.map · _) (funext fun slot => ?_)
  simp only [Function.comp_apply, arranged]
  split <;> rfl

/-- Storing what the ranking found leaves the tables in their places. -/
theorem sort_storeMarks (s : Schema) :
    (storeMarks s.byName (marks s.byName)).sort =
      { storeMarks s.byName (marks s.byName) with sorted := true } := by
  have hnames : (storeMarks s.byName (marks s.byName)).slots.map (fun slot => slot.value.name) =
      s.byName.slots.map fun slot => slot.value.name := by
    refine List.ext_getElem? fun u => ?_
    have hget := congrArg (Option.map Table.name) (get?_storeMarks s u)
    rw [List.getElem?_map, List.getElem?_map]
    simpa only [Entries.get?, Option.map_map, Function.comp_def, name_arranged] using hget
  have hsorted : (s.byName.slots.map fun slot => slot.value.name).Pairwise fun a b =>
      Entry.nameLe a b = true := by
    rw [List.pairwise_map]
    exact Entries.ordered_sort s.tables rfl
  rw [← hnames, List.pairwise_map] at hsorted
  rw [Entries.sort]
  exact congrArg (fun slots => { storeMarks s.byName (marks s.byName) with slots, sorted := true })
    (stableSort_of_pairwise hsorted)

theorem get?_arrange (s : Schema) (u : Nat) :
    s.arrange.2.tables.get? u = (s.byName.get? u).map (s.arranged u) := by
  show (storeMarks s.byName (marks s.byName)).sort.get? u = _
  rw [sort_storeMarks]
  exact get?_storeMarks s u

/-! ### The order -/

/-- The live tables with their positions. -/
def liveTables (es : Entries Table) : List (Table × Nat) :=
  es.values.zipIdx.filter fun entry => Entry.isLive entry.1

theorem mem_liveTables {es : Entries Table} {t : Table} {u : Nat} :
    (t, u) ∈ liveTables es ↔ es.get? u = some t ∧ Entry.isLive t = true := by
  rw [liveTables, List.mem_filter, List.mk_mem_zipIdx_iff_getElem?, Entries.getElem?_values]

theorem mem_livePositions {es : Entries Table} {u : Nat} :
    u ∈ livePositions es ↔ ∃ t, es.get? u = some t ∧ Entry.isLive t = true := by
  constructor
  · intro h
    obtain ⟨⟨t, v⟩, hmem, rfl⟩ := List.mem_map.mp h
    exact ⟨t, mem_liveTables.mp hmem⟩
  · rintro ⟨t, ht⟩
    exact List.mem_map.mpr ⟨(t, u), mem_liveTables.mpr ht, rfl⟩

theorem map_fst_liveTables (es : Entries Table) :
    (liveTables es).map Prod.fst = es.values.filter Entry.isLive := by
  conv_rhs => rw [← List.zipIdx_map_fst 0 es.values]
  rw [List.filter_map]
  rfl

theorem liveTables_arrange (s : Schema) :
    liveTables s.arrange.2.tables =
      (liveTables s.byName).map fun entry => (s.arranged entry.2 entry.1, entry.2) := by
  have hzip : s.arrange.2.tables.values.zipIdx =
      s.byName.values.zipIdx.map fun entry => (s.arranged entry.2 entry.1, entry.2) := by
    refine List.ext_getElem? fun u => ?_
    rw [List.getElem?_zipIdx, List.getElem?_map, List.getElem?_zipIdx, Entries.getElem?_values,
      Entries.getElem?_values, get?_arrange]
    cases s.byName.get? u <;> simp
  rw [liveTables, hzip, List.filter_map, liveTables]
  simp only [Function.comp_def, isLive_arranged]

/-- The positions of the live tables in creation order. -/
def order (s : Schema) : List Nat :=
  (stableSort (fun a b => decide (a.1.rank ≤ b.1.rank)) (liveTables s.arrange.2.tables)).map Prod.snd

theorem rank_isPreorder {α : Type} (rank : α → Nat) : IsPreorder fun a b => decide (rank a ≤ rank b) where
  total a b := by
    rw [decide_eq_true_eq, decide_eq_true_eq]
    exact Nat.le_total _ _
  trans a b c := by
    rw [decide_eq_true_eq, decide_eq_true_eq, decide_eq_true_eq]
    exact Nat.le_trans

theorem arrange_eq_map (s : Schema) : s.arrange.1 =
    (stableSort (fun a b => decide (a.1.rank ≤ b.1.rank)) (liveTables s.arrange.2.tables)).map Prod.fst := by
  rw [arrange, creationOrder, ← map_fst_liveTables]
  exact stableSort_map Prod.fst _ fun _ _ => rfl

theorem arrange_eq_order (s : Schema) : s.arrange.1.map some = s.order.map s.arrange.2.tables.get? := by
  rw [arrange_eq_map, order, List.map_map, List.map_map]
  refine List.map_congr_left fun a ha => ?_
  exact (mem_liveTables.mp (mem_stableSort.mp ha)).1.symm

/-- The order goes over the live tables. -/
theorem order_perm (s : Schema) : s.order.Perm (livePositions s.byName) := by
  refine ((stableSort_perm _ _).map Prod.snd).trans (.of_eq ?_)
  rw [liveTables_arrange, List.map_map]
  rfl

theorem arrange_pairwise (s : Schema) :
    s.arrange.1.Pairwise fun a b => a.rank ≤ b.rank ∧ (b.rank ≤ a.rank → Entry.nameLe a.name b.name = true) := by
  have hnames : s.arrange.2.tables.values.Pairwise fun a b => Entry.nameLe a.name b.name = true := by
    rw [Entries.values, List.pairwise_map]
    exact Entries.ordered_sort _ rfl
  have h := pairwise_stableSort (rank_isPreorder Table.rank) (hnames.filter Entry.isLive)
  simp only [decide_eq_true_eq] at h
  exact h

theorem mem_order {s : Schema} {u : Nat} :
    u ∈ s.order ↔ ∃ t, s.byName.get? u = some t ∧ Entry.isLive t = true := by
  rw [s.order_perm.mem_iff, mem_livePositions]

theorem livePositions_nodup (es : Entries Table) : (livePositions es).Nodup := by
  refine List.Sublist.nodup (List.filter_sublist.map Prod.snd) ?_
  rw [List.zipIdx_map_snd]
  exact List.nodup_range'

theorem order_nodup (s : Schema) : s.order.Nodup :=
  s.order_perm.nodup_iff.mpr (livePositions_nodup s.byName)

theorem order_pairwise (s : Schema) :
    s.order.Pairwise fun u v => (s.markAt u).rank ≤ (s.markAt v).rank := by
  rw [order, List.pairwise_map]
  refine (sorted_stableSort (rank_isPreorder fun a : Table × Nat => a.1.rank) _).imp_of_mem ?_
  intro a b ha hb hab
  have hrank : ∀ a ∈ liveTables s.arrange.2.tables, a.1.rank = (s.markAt a.2).rank := by
    intro a ha
    rw [liveTables_arrange] at ha
    obtain ⟨⟨t, u⟩, hmem, rfl⟩ := List.mem_map.mp ha
    rw [arranged_of_live (mem_liveTables.mp hmem).2]
    rfl
  rw [← hrank a (mem_stableSort.mp ha), ← hrank b (mem_stableSort.mp hb)]
  exact of_decide_eq_true hab

/-- A live table of smaller rank stands in front. -/
theorem order_before {s : Schema} {u v : Nat} (hu : u ∈ s.order) (hv : v ∈ s.order)
    (h : (s.markAt v).rank < (s.markAt u).rank) : s.order.idxOf v < s.order.idxOf u := by
  by_contra hle
  have hlt : s.order.idxOf u < s.order.idxOf v := by
    refine Nat.lt_of_le_of_ne (Nat.le_of_not_lt hle) fun heq => ?_
    rw [(List.idxOf_inj hu).mp heq] at h
    exact absurd h (Nat.lt_irrefl _)
  have hpair := List.pairwise_iff_getElem.mp s.order_pairwise _ _ (List.idxOf_lt_length_of_mem hu)
    (List.idxOf_lt_length_of_mem hv) hlt
  rw [List.getElem_idxOf, List.getElem_idxOf] at hpair
  omega

theorem marks_eq_rankAll (tables : Entries Table) :
    marks tables = Ranking.rankAll (tables.values.map (references tables)) (livePositions tables) := by
  rw [marks, Ranking.rankAll, List.length_map, Entries.values, List.length_map]
  rfl

theorem livePositions_lt {tables : Entries Table} :
    ∀ u ∈ livePositions tables, u < (tables.values.map (references tables)).length := by
  intro u hu
  obtain ⟨t, ht, _⟩ := mem_livePositions.mp hu
  rw [List.length_map, Entries.values, List.length_map]
  exact get?_lt ht

theorem within_length (tables : Entries Table) :
    Ranking.Within (tables.values.map (references tables)).length
      (tables.values.map (references tables)) := by
  rw [List.length_map, Entries.values, List.length_map]
  exact within_references tables

/-- The finished tables, and what the ranking of a schema found. -/
theorem marks_rootsDone (s : Schema) :
    ∃ done, Ranking.RootsDone (s.byName.values.map (references s.byName))
      (livePositions s.byName) (marks s.byName) done := by
  rw [marks_eq_rankAll]
  exact Ranking.rankAll_rootsDone (within_length _) livePositions_lt

/-- A foreign key that leads somewhere is kept, and its table marked, or it leads
to a table of smaller rank. -/
theorem Refers.kept_or_below {s : Schema} {u v : Nat} {column : String} (h : s.Refers u column v) :
    (column ∈ (s.markAt u).retained ∧ (s.markAt u).cycle = true) ∨
      (s.markAt v).rank < (s.markAt u).rank ∨ (s.markAt u).rank = Ranking.maxRank := by
  obtain ⟨done, hdone⟩ := s.marks_rootsDone
  obtain ⟨r, hr, rfl, htarget⟩ := h.reference
  have hu : u ∈ done := hdone.seen (mem_livePositions.mpr h.live)
  rcases hdone.order.settled.kept_or_earlier hdone.order.nodup hu hr with
    ⟨hkept, hcycle⟩ | ⟨target, ht, _, _, hrank⟩
  · exact .inl ⟨hkept, hcycle (by rw [htarget]; rfl)⟩
  · obtain rfl := Option.some.inj (htarget.symm.trans ht)
    exact .inr hrank

/-- What the order of tables promises. Tables are given by their positions in the
order of names. -/
structure SoundOrder (s : Schema) (order : List Nat) : Prop where
  /-- Sorting by name only changes places. -/
  tables : s.byName.values.Perm s.tables.values
  /-- Every live table stands in the order once, and nothing else does. -/
  live : order.Perm (livePositions s.byName)
  nodup : order.Nodup
  /-- The list returned holds these tables as they are left. -/
  listed : s.arrange.1.map some = order.map s.arrange.2.tables.get?
  /-- Nothing but the rank, the listed keys and the flags of a table changes. -/
  same : ∀ u t, s.byName.get? u = some t → ∃ rank foreigns flags,
    s.arrange.2.tables.get? u = some { t with rank, foreigns, flags }
  /-- Ranks ascend, and tables of one rank stand by name. -/
  sorted : s.arrange.1.Pairwise fun a b =>
    a.rank < b.rank ∨ (a.rank = b.rank ∧ Entry.nameLe a.name b.name = true)
  /-- A table that is referenced by a key which is not listed any more stands in front. -/
  before : ∀ u column v t, s.Refers u column v → s.arrange.2.tables.get? u = some t →
    column ∉ t.foreigns → order.idxOf v < order.idxOf u ∨ t.rank = Ranking.maxRank
  /-- On every circle of keys there is one that stays listed, in a table that is flagged. -/
  kept : ∀ circle : Cycle (Nat × String), circle ≠ Cycle.nil →
    circle.Chain (fun a b => s.Refers a.1 a.2 b.1) →
      ∃ a ∈ circle, ∃ t, s.arrange.2.tables.get? a.1 = some t ∧ a.2 ∈ t.foreigns ∧
        t.flags.isReferenceCycle = true
  /-- No live table is left in the middle of its ranking. -/
  unchecked : ∀ t ∈ s.arrange.2.tables.values, Entry.isLive t = true → t.flags.isChecking = false

/-- The flags that a ranking stores, bit by bit. -/
theorem bit_ranked (m : Mark) (t : Table) (i : Nat) : (ranked m t).flags.bit i =
    ((t.flags.bit i || m.cycle && Flags.referenceCycle.bit i ||
      m.constrainedCycle && Flags.constraintCycle.bit i) && !Flags.checking.bit i) := by
  simp only [ranked, Flags.bit_remove]
  cases m.cycle <;> cases m.constrainedCycle <;> simp

theorem isChecking_ranked (m : Mark) (t : Table) : (ranked m t).flags.isChecking = false := by
  have hchecking : Flags.checking.bit 6 = true := by decide
  rw [Flags.isChecking_eq, bit_ranked, hchecking, Bool.not_true, Bool.and_false]

theorem isReferenceCycle_ranked_eq (m : Mark) (t : Table) :
    (ranked m t).flags.isReferenceCycle = (m.cycle || t.flags.isReferenceCycle) := by
  have hself : Flags.referenceCycle.bit 8 = true := by decide
  have hconstraint : Flags.constraintCycle.bit 8 = false := by decide
  have hchecking : Flags.checking.bit 8 = false := by decide
  simp [Flags.isReferenceCycle_eq, bit_ranked, hself, hconstraint, hchecking, Bool.or_comm]

theorem isConstraintCycle_ranked_eq (m : Mark) (t : Table) :
    (ranked m t).flags.isConstraintCycle = (m.constrainedCycle || t.flags.isConstraintCycle) := by
  have hself : Flags.constraintCycle.bit 7 = true := by decide
  have hreference : Flags.referenceCycle.bit 7 = false := by decide
  have hchecking : Flags.checking.bit 7 = false := by decide
  simp [Flags.isConstraintCycle_eq, bit_ranked, hself, hreference, hchecking, Bool.or_comm]

theorem isReferenceCycle_ranked {m : Mark} (h : m.cycle = true) (t : Table) :
    (ranked m t).flags.isReferenceCycle = true := by
  rw [isReferenceCycle_ranked_eq, h, Bool.true_or]

/-- **An arrangement is sound**, whatever the foreign keys look like. -/
theorem arrange_sound (s : Schema) : ∃ order, s.SoundOrder order := by
  have hafter : ∀ {u t}, s.byName.get? u = some t → Entry.isLive t = true →
      s.arrange.2.tables.get? u = some (ranked (s.markAt u) t) := by
    intro u t ht hlive
    rw [get?_arrange, ht, Option.map_some, arranged_of_live hlive]
  refine ⟨s.order, s.byName_perm, s.order_perm, s.order_nodup, s.arrange_eq_order, ?same, ?sorted, ?before,
    ?kept, ?unchecked⟩
  case same =>
    intro u t ht
    rw [get?_arrange, ht, Option.map_some, arranged]
    split
    · exact ⟨_, _, _, rfl⟩
    · exact ⟨t.rank, t.foreigns, t.flags, rfl⟩
  case sorted =>
    refine s.arrange_pairwise.imp fun {a b} ⟨hle, hname⟩ => ?_
    rcases Nat.lt_or_eq_of_le hle with hlt | heq
    · exact .inl hlt
    · exact .inr ⟨heq, hname heq.ge⟩
  case before =>
    intro u column v t hrefers ht hgone
    obtain ⟨w, hw, hlive⟩ := hrefers.live
    obtain rfl := Option.some.inj ((hafter hw hlive).symm.trans ht)
    rcases hrefers.kept_or_below with ⟨hkept, _⟩ | hlt | hmax
    · exact absurd hkept hgone
    · exact .inl (order_before (mem_order.mpr hrefers.live) (mem_order.mpr hrefers.target_live) hlt)
    · exact .inr hmax
  case kept =>
    intro circle hne hchain
    obtain ⟨done, hdone⟩ := s.marks_rootsDone
    have hfollows : circle.Chain
        (Ranking.Follows (s.byName.values.map (references s.byName)) done) :=
      hchain.imp fun a b hab => ⟨hdone.seen (mem_livePositions.mpr hab.live), hab.reference⟩
    obtain ⟨a, ha, hkept, hcycle⟩ := hdone.order.kept_of_circle hne hfollows
    obtain ⟨b, hab⟩ := Ranking.exists_step hchain ha
    obtain ⟨w, hw, hlive⟩ := hab.live
    exact ⟨a, ha, _, hafter hw hlive, hkept, isReferenceCycle_ranked hcycle w⟩
  case unchecked =>
    intro t ht hlive
    obtain ⟨u, hu⟩ := List.getElem?_of_mem ht
    rw [Entries.getElem?_values, get?_arrange] at hu
    obtain ⟨w, _, rfl⟩ := Option.map_eq_some_iff.mp hu
    rw [isLive_arranged] at hlive
    rw [arranged_of_live hlive]
    exact isChecking_ranked _ _

end Schema
end SchemaShift

import SchemaShift.Proofs.Arrange
import SchemaShift.Proofs.Reranking
import Mathlib.Algebra.Order.BigOperators.Group.List
import Mathlib.Algebra.BigOperators.Group.List.Basic

/-! Arranging again.

An arrangement takes the keys that lead into no circle out of the lists of
foreign keys, and the next one ranks by what is left. It finds the same circles
(`markAt_arrange`), so lists, flags and tables stay, and ranks only go down: a
third arrangement changes nothing, and neither does the second one if the first
one took no key out (`arrange_again`). -/
namespace SchemaShift
namespace Schema

open Ranking (markOf referencesOf rankAll)

/-! ### The references that are left -/

/-- The tables that an arrangement leaves are sorted by name. -/
theorem byName_arrange (s : Schema) : s.arrange.2.byName = s.arrange.2.tables :=
  Entries.sort_sort _

theorem get?_byName_arrange (s : Schema) (u : Nat) :
    s.arrange.2.byName.get? u = (s.byName.get? u).map (s.arranged u) := by
  rw [byName_arrange, get?_arrange]

theorem findLive?_arrange (s : Schema) (name : String) :
    s.arrange.2.byName.findLive? name = s.byName.findLive? name := by
  refine Entries.findLive?_congr (Entries.ordered_sort _) (Entries.ordered_sort _) (fun u => ?_) name
  have hget := get?_byName_arrange s u
  rw [byName, byName] at hget
  rw [hget, Option.map_map]
  refine congrArg (Option.map · _) (funext fun t => ?_)
  exact Prod.ext (name_arranged s u t) (isLive_arranged s u t)

theorem referenceOf_arrange (s : Schema) : referenceOf s.arrange.2.byName = referenceOf s.byName := by
  funext c
  unfold referenceOf
  split
  · rw [findLive?_arrange]
  · rfl

theorem livePositions_arrange (s : Schema) :
    livePositions s.arrange.2.byName = livePositions s.byName := by
  rw [byName_arrange]
  show (liveTables _).map Prod.snd = (liveTables _).map Prod.snd
  rw [liveTables_arrange, List.map_map]
  rfl

/-- A reference is found again by its column. -/
theorem reference_column {tables : Entries Table} {t : Table} {r : Reference}
    (h : r ∈ references tables t) :
    ∃ c, t.column? r.column = some c ∧ referenceOf tables c = some r := by
  obtain ⟨column, _, c, hfind, hr⟩ := mem_references.mp h
  obtain ⟨key, _, hname, _⟩ := referenceOf_some hr
  have hcolumn : column = r.column := by
    have := (Entries.live?_some hfind).1
    exact Option.some.inj (this.symm.trans hname)
  exact ⟨c, hcolumn ▸ hfind, hr⟩

theorem references_sorted (tables : Entries Table) (t : Table) :
    (references tables t).Pairwise fun a b => decide (a.targetName ≤ b.targetName) = true := by
  refine sorted_stableSort ⟨fun a b => ?_, fun a b c => ?_⟩ _
  · simp only [decide_eq_true_eq]
    exact le_total _ _
  · simp only [decide_eq_true_eq]
    exact le_trans

/-- A table that lists the columns of some of its references, in order, has these references. -/
theorem references_of_foreigns {tables : Entries Table} {t t' : Table} {ks : List Reference}
    (hks : ks.Sublist (references tables t)) (hcolumns : t'.columns = t.columns)
    (hforeigns : t'.foreigns = ks.map Reference.column) : references tables t' = ks := by
  have hfound : ∀ {ks : List Reference}, ks ⊆ references tables t →
      ((ks.map Reference.column).filterMap t'.column?).filterMap (referenceOf tables) = ks := by
    intro ks hks
    induction ks with
    | nil => rfl
    | cons r ks ih =>
      obtain ⟨hr, hks⟩ := List.cons_subset.mp hks
      obtain ⟨c, hc, hreference⟩ := reference_column hr
      have hc' : t'.column? r.column = some c := by
        rw [Table.column?, Table.entries, hcolumns]
        exact hc
      rw [List.map_cons, List.filterMap_cons, hc', List.filterMap_cons, hreference]
      exact congrArg _ (ih hks)
  rw [references, hforeigns, hfound hks.subset]
  exact stableSort_of_pairwise ((references_sorted tables t).sublist hks)

/-- The references of all tables, by position. -/
def allReferences (tables : Entries Table) : List (List Reference) :=
  tables.values.map (references tables)

/-- The account of a live table, over the references that it has afterwards. -/
theorem account_arrange (s : Schema) {u : Nat} {t : Table} (ht : s.byName.get? u = some t)
    (hlive : Entry.isLive t = true) :
    Ranking.Account (references s.byName t) (references s.arrange.2.byName (s.arranged u t))
      (s.markAt u).retained (s.markAt u) := by
  have hu : u ∈ livePositions s.byName := mem_livePositions.mpr ⟨t, ht, hlive⟩
  obtain ⟨ks, hks⟩ := Ranking.account_of_mem (within_length s.byName) livePositions_lt hu
  rw [← marks_eq_rankAll, referencesOf_map _ ht] at hks
  have hforeigns : (s.arranged u t).foreigns = ks.map Reference.column := by
    rw [arranged_of_live hlive]
    exact hks.retained
  have hcolumns : (s.arranged u t).columns = t.columns := by
    rw [arranged_of_live hlive]
    rfl
  have hsame : references s.arrange.2.byName (s.arranged u t) =
      references s.byName (s.arranged u t) := by
    rw [references, references, referenceOf_arrange]
  rw [hsame, references_of_foreigns hks.sublist hcolumns hforeigns]
  exact hks

theorem residue_arrange (s : Schema) :
    Ranking.Residue (allReferences s.byName) (allReferences s.arrange.2.byName)
      (livePositions s.byName) (marks s.byName) where
  within u hu r hr target htarget := by
    obtain ⟨t, ht, _⟩ := mem_livePositions.mp hu
    rw [allReferences, referencesOf_map _ ht] at hr
    exact mem_livePositions.mpr (target_live hr htarget)
  column u hu r hr r' hr' hcolumn := by
    obtain ⟨t, ht, _⟩ := mem_livePositions.mp hu
    rw [allReferences, referencesOf_map _ ht] at hr hr'
    obtain ⟨c, hc, hreference⟩ := reference_column hr
    obtain ⟨c', hc', hreference'⟩ := reference_column hr'
    rw [hcolumn, hc'] at hc
    obtain rfl := Option.some.inj hc
    exact Option.some.inj (hreference.symm.trans hreference')
  sublist u hu := by
    obtain ⟨t, ht, hlive⟩ := mem_livePositions.mp hu
    have ht' : s.arrange.2.byName.get? u = some (s.arranged u t) := by
      rw [get?_byName_arrange, ht, Option.map_some]
    rw [allReferences, allReferences, referencesOf_map _ ht, referencesOf_map _ ht']
    exact (s.account_arrange ht hlive).sublist
  retained u hu := by
    obtain ⟨t, ht, hlive⟩ := mem_livePositions.mp hu
    have ht' : s.arrange.2.byName.get? u = some (s.arranged u t) := by
      rw [get?_byName_arrange, ht, Option.map_some]
    rw [allReferences, referencesOf_map _ ht']
    exact (s.account_arrange ht hlive).retained.symm

theorem length_arrange (s : Schema) : s.arrange.2.tables.length = s.byName.length := by
  show (storeMarks s.byName (marks s.byName)).sort.length = _
  rw [sort_storeMarks]
  exact List.length_mapIdx

/-- **The second arrangement finds the same marks**, but for ranks. -/
theorem markAt_arrange (s : Schema) {u : Nat} (hu : u ∈ livePositions s.byName) :
    Ranking.Lowered (allReferences s.byName) u (s.markAt u) (s.arrange.2.markAt u) := by
  have hlength : (allReferences s.arrange.2.byName).length = (allReferences s.byName).length := by
    rw [allReferences, allReferences, List.length_map, List.length_map, Entries.values, Entries.values,
      List.length_map, List.length_map, byName_arrange]
    exact s.length_arrange
  have hres := s.residue_arrange
  rw [marks_eq_rankAll] at hres
  have h := Ranking.rankAll_residue hres (within_length _) (within_length _) hlength
    livePositions_lt hu
  rw [markAt, markAt, marks_eq_rankAll, marks_eq_rankAll, livePositions_arrange]
  exact h

/-! ### The tables that are left -/

/-- Storing a mark again, with another rank, changes the rank only. -/
theorem ranked_ranked (m : Mark) (rank : Nat) (t : Table) :
    ranked { m with rank } (ranked m t) = { ranked m t with rank } := by
  have hflags : (ranked { m with rank } (ranked m t)).flags = (ranked m t).flags := by
    refine Flags.ext_bit fun i => ?_
    simp only [ranked]
    cases m.cycle <;> cases m.constrainedCycle <;>
      simp only [Bool.false_eq_true, if_true, if_false, Flags.bit_remove, Flags.bit_insert] <;>
      cases t.flags.bit i <;> cases Flags.referenceCycle.bit i <;>
      cases Flags.constraintCycle.bit i <;> cases Flags.checking.bit i <;> rfl
  exact congrArg (fun flags => { ranked m t with rank, flags }) hflags

/-- The slot of a table with its mark stored. -/
def storeMark (marks : Ranking.Marks) (u : Nat) (slot : Slot Table) : Slot Table :=
  if Entry.isLive slot.value then slot.modify (ranked (markOf marks u)) else slot

theorem storeMark_storeMark (marks : Ranking.Marks) (u : Nat) (slot : Slot Table) :
    storeMark marks u (storeMark marks u slot) = storeMark marks u slot := by
  by_cases hlive : Entry.isLive slot.value = true
  · have hstored : storeMark marks u slot = slot.modify (ranked (markOf marks u)) := if_pos hlive
    have hlive' : Entry.isLive (slot.modify (ranked (markOf marks u))).value = true := hlive
    rw [hstored, storeMark, if_pos hlive']
    exact congrArg Slot.owned (ranked_ranked _ _ _)
  · have hstored : storeMark marks u slot = slot := if_neg hlive
    rw [hstored, hstored]

/-- An arrangement that finds what the one before found changes nothing. -/
theorem arrange_of_marks {s : Schema} (h : marks s.arrange.2.byName = marks s.byName) :
    s.arrange.2.arrange = s.arrange := by
  have htables : s.arrange.2.byName = { storeMarks s.byName (marks s.byName) with sorted := true } := by
    rw [byName_arrange]
    exact s.sort_storeMarks
  have hslots : s.arrange.2.byName.slots.mapIdx (storeMark (marks s.byName)) =
      s.arrange.2.byName.slots := by
    have hstored : s.arrange.2.byName.slots = s.byName.slots.mapIdx (storeMark (marks s.byName)) := by
      rw [htables]
      rfl
    rw [hstored, List.mapIdx_mapIdx]
    exact congrArg (List.mapIdx · _) (funext fun u => funext fun slot => storeMark_storeMark _ u slot)
  have hsame : (storeMarks s.arrange.2.byName (marks s.arrange.2.byName)).sort = s.arrange.2.tables := by
    rw [sort_storeMarks, h, ← byName_arrange]
    show { s.arrange.2.byName with
      slots := s.arrange.2.byName.slots.mapIdx (storeMark (marks s.byName)), sorted := true } = _
    rw [hslots]
    rfl
  have hrank : s.arrange.2.rankTables = s.arrange.2 :=
    congrArg (fun tables => { s.arrange.2 with tables }) hsame
  show (s.arrange.2.rankTables.creationOrder, s.arrange.2.rankTables) = s.arrange
  rw [hrank]
  rfl

/-! ### Keys that stay -/

/-- The name is that of a foreign key column. -/
def hasKey (t : Table) (name : String) : Bool := (t.column? name).any Column.hasForeign

/-- An arrangement takes no foreign key out of the list of a table. -/
def KeepsKeys (s : Schema) : Prop :=
  ∀ u t t', s.byName.get? u = some t → s.arrange.2.tables.get? u = some t' →
    Entry.isLive t = true → t'.foreigns.Perm (t.foreigns.filter (hasKey t))

/-- The reference of a column that is found by its name. -/
theorem referenceOf_of_name (tables : Entries Table) {c : Column} {name : String} (h : c.name = some name) :
    referenceOf tables c =
      c.foreign.map fun key => ⟨key.table, tables.findLive? key.table, name, c.isConstrained⟩ := by
  cases hforeign : c.foreign with
  | none => simp only [referenceOf, hforeign, Option.map_none]
  | some key => simp only [referenceOf, hforeign, h, Option.map_some]

/-- The columns of the references that pass `p` are in the list of foreign keys, in another order. -/
theorem map_column_filter (tables : Entries Table) (t : Table) (p : Reference → Bool) :
    (((references tables t).filter p).map Reference.column).Perm
      (t.foreigns.filter fun name => ((t.column? name).bind (referenceOf tables)).any p) := by
  refine (((stableSort_perm _ _).filter p).map Reference.column).trans (.of_eq ?_)
  induction t.foreigns with
  | nil => rfl
  | cons name rest ih =>
    cases hc : t.column? name with
    | none =>
      rw [List.filterMap_cons_none hc, ih, List.filter_cons_of_neg (by simp [hc])]
    | some c =>
      rw [List.filterMap_cons_some hc]
      cases hreference : referenceOf tables c with
      | none =>
        rw [List.filterMap_cons_none hreference, ih, List.filter_cons_of_neg (by simp [hc, hreference])]
      | some r =>
        obtain ⟨_, _, hcolumn, _⟩ := referenceOf_some hreference
        have hname : r.column = name := Option.some.inj (hcolumn.symm.trans (Entries.live?_some hc).1)
        rw [List.filterMap_cons_some hreference]
        by_cases hr : p r = true
        · rw [List.filter_cons_of_pos hr, List.map_cons, ih, hname,
            List.filter_cons_of_pos (by simp [hc, hreference, hr])]
        · rw [List.filter_cons_of_neg hr, ih, List.filter_cons_of_neg (by simp [hc, hreference, hr])]

theorem map_column_references (tables : Entries Table) (t : Table) :
    ((references tables t).map Reference.column).Perm (t.foreigns.filter (hasKey t)) := by
  have hperm := map_column_filter tables t fun _ => true
  rw [List.filter_true] at hperm
  refine hperm.trans (.of_eq (List.filter_congr fun name _ => ?_))
  rw [hasKey]
  cases hc : t.column? name with
  | none => rfl
  | some c =>
    rw [Option.bind_some, referenceOf_of_name tables (Entries.live?_some hc).1, Option.any_map,
      Option.any_some, Column.hasForeign]
    cases c.foreign <;> rfl

theorem marks_of_keepsKeys {s : Schema} (h : s.KeepsKeys) :
    marks s.arrange.2.byName = marks s.byName := by
  have hreferences : allReferences s.arrange.2.byName = allReferences s.byName := by
    refine List.ext_getElem? fun u => ?_
    rw [allReferences, allReferences, List.getElem?_map, List.getElem?_map, Entries.getElem?_values,
      Entries.getElem?_values, get?_byName_arrange, Option.map_map]
    cases ht : s.byName.get? u with
    | none => rfl
    | some t =>
      refine congrArg some ?_
      by_cases hlive : Entry.isLive t = true
      · have haccount := s.account_arrange ht hlive
        have hkept := h u t _ ht (by rw [get?_arrange, ht, Option.map_some]) hlive
        have hforeigns : (s.arranged u t).foreigns = (s.markAt u).retained := by
          rw [arranged_of_live hlive]
          rfl
        have hlength := hkept.length_eq.trans (map_column_references s.byName t).length_eq.symm
        rw [hforeigns, haccount.retained, List.length_map, List.length_map] at hlength
        exact haccount.sublist.eq_of_length hlength
      · have hsame : s.arranged u t = t := if_neg hlive
        rw [Function.comp_apply, hsame, references, references, referenceOf_arrange]
  rw [marks_eq_rankAll, marks_eq_rankAll, livePositions_arrange]
  exact congrArg (rankAll · _) hreferences

/-- What a second arrangement leaves of a table. -/
theorem get?_arrange_arrange (s : Schema) {u : Nat} {t : Table}
    (ht : s.arrange.2.tables.get? u = some t) :
    ∃ rank ≤ t.rank, s.arrange.2.arrange.2.tables.get? u = some { t with rank } := by
  rw [get?_arrange, byName_arrange, ht, Option.map_some]
  rw [get?_arrange] at ht
  obtain ⟨w, hw, rfl⟩ := Option.map_eq_some_iff.mp ht
  by_cases hlive : Entry.isLive w = true
  · have hlow := s.markAt_arrange (mem_livePositions.mpr ⟨w, hw, hlive⟩)
    have hlive' : Entry.isLive (ranked (s.markAt u) w) = true := hlive
    rw [arranged_of_live hlive, arranged_of_live hlive', hlow.same, ranked_ranked]
    exact ⟨_, hlow.le, rfl⟩
  · have hsame : s.arrange.2.arranged u (s.arranged u w) = s.arranged u w :=
      if_neg (by rwa [isLive_arranged])
    rw [hsame]
    exact ⟨_, le_rfl, rfl⟩

/-- The second arrangement takes no key out. -/
theorem keepsKeys_arrange (s : Schema) : s.arrange.2.KeepsKeys := by
  intro u t t' ht ht' hlive
  rw [byName_arrange] at ht
  obtain ⟨rank, _, hrank⟩ := s.get?_arrange_arrange ht
  obtain rfl := Option.some.inj (hrank.symm.trans ht')
  rw [get?_arrange] at ht
  obtain ⟨w, hw, rfl⟩ := Option.map_eq_some_iff.mp ht
  rw [isLive_arranged] at hlive
  have haccount := s.account_arrange hw hlive
  refine .of_eq (List.filter_eq_self.mpr fun name hname => ?_).symm
  rw [arranged_of_live hlive] at hname
  change name ∈ (s.markAt u).retained at hname
  rw [haccount.retained] at hname
  obtain ⟨r, hr, rfl⟩ := List.mem_map.mp hname
  obtain ⟨c, hc, hreference⟩ := reference_column (haccount.sublist.subset hr)
  obtain ⟨key, hkey, _, _⟩ := referenceOf_some hreference
  have hc' : (s.arranged u w).column? r.column = some c := by
    rw [arranged_of_live hlive]
    exact hc
  rw [hasKey, hc', Option.any_some, Column.hasForeign, hkey]
  rfl

/-- The list of ranks, in another order. -/
theorem ranks_perm (s : Schema) : (s.arrange.1.map Table.rank).Perm
    ((livePositions s.byName).map fun u => (s.markAt u).rank) := by
  rw [arrange_eq_map, List.map_map]
  refine ((stableSort_perm _ _).map _).trans (.of_eq ?_)
  show _ = ((liveTables s.byName).map Prod.snd).map _
  rw [liveTables_arrange, List.map_map, List.map_map]
  refine List.map_congr_left fun a ha => ?_
  have hlive := (mem_liveTables.mp ha).2
  rw [Function.comp_apply, Function.comp_apply, Function.comp_apply, arranged_of_live hlive]
  rfl

theorem keepsKeys_of_arrange_eq {s : Schema} (h : s.arrange.2.arrange.1 = s.arrange.1) :
    s.KeepsKeys ∨ ∃ t ∈ s.arrange.1, t.rank = Ranking.maxRank := by
  refine or_iff_not_imp_right.mpr fun hmax => ?_
  have hperm := s.ranks_perm
  have hperm' := s.arrange.2.ranks_perm
  rw [h, livePositions_arrange] at hperm'
  have hsum := hperm.symm.sum_eq.trans hperm'.sum_eq
  intro u t t' ht ht' hlive
  have hu : u ∈ livePositions s.byName := mem_livePositions.mpr ⟨t, ht, hlive⟩
  have hle : ∀ v ∈ livePositions s.byName, (s.arrange.2.markAt v).rank ≤ (s.markAt v).rank :=
    fun v hv => (s.markAt_arrange hv).le
  obtain ⟨done, hdone⟩ := s.marks_rootsDone
  have hpos := ((hdone.order.mem u).mp (hdone.seen hu)).1
  have htable : t' = ranked (s.markAt u) t := by
    rw [get?_arrange, ht, Option.map_some, arranged_of_live hlive] at ht'
    exact (Option.some.inj ht').symm
  rcases (s.markAt_arrange hu).strict hpos (hdone.checking u) with hlt | hsaturated | hall
  · exact absurd hsum (List.sum_lt_sum _ _ hle ⟨u, hu, hlt⟩).ne'
  · have hmem : (s.markAt u).rank ∈ s.arrange.1.map Table.rank :=
      hperm.mem_iff.mpr (List.mem_map.mpr ⟨u, hu, rfl⟩)
    obtain ⟨w, hw, hrank⟩ := List.mem_map.mp hmem
    exact absurd ⟨w, hw, hrank.trans hsaturated⟩ hmax
  · rw [allReferences, referencesOf_map _ ht] at hall
    rw [htable]
    exact (List.Perm.of_eq hall).trans (map_column_references s.byName t)

/-- **Arranging again** changes no table but in rank, and from the third time on
nothing. The second list is the first one if the first arrangement took no key
out, and only then, unless the ranks have reached the greatest word. -/
theorem arrange_again (s : Schema) :
    s.arrange.2.arrange.2.arrange = s.arrange.2.arrange ∧
      (∀ u t, s.arrange.2.tables.get? u = some t →
        ∃ rank ≤ t.rank, s.arrange.2.arrange.2.tables.get? u = some { t with rank }) ∧
      (s.KeepsKeys → s.arrange.2.arrange = s.arrange) ∧
      (s.arrange.2.arrange.1 = s.arrange.1 →
        s.KeepsKeys ∨ ∃ t ∈ s.arrange.1, t.rank = Ranking.maxRank) :=
  ⟨arrange_of_marks (marks_of_keepsKeys s.keepsKeys_arrange), fun _ _ => s.get?_arrange_arrange,
    fun h => arrange_of_marks (marks_of_keepsKeys h), keepsKeys_of_arrange_eq⟩

/-- Posts belong to users. -/
def blog : Schema :=
  let author := (Column.plain "author" .int64).reference "users" "id"
  let posts : Table := { Table.plain "posts" with
    columns := .owned { slots := [.owned author] }, foreigns := ["author"] }
  { name := "blog", version := 1, tables := { slots := [.owned posts, .owned (.plain "users")] } }

/-- An arrangement that takes a key out is not repeated: users do not come first again. -/
theorem arrange_not_idempotent :
    (blog.arrange.1.map fun t => (t.name, t.rank)) = [(some "users", 1), (some "posts", 2)] ∧
      (blog.arrange.2.arrange.1.map fun t => (t.name, t.rank)) =
        [(some "posts", 1), (some "users", 1)] := by
  decide +kernel

end Schema
end SchemaShift

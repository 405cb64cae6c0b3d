import SchemaShift.Proofs.KeyGraph

/-! What the cycle marks say.

After an arrangement the flags of a table agree with its list of foreign keys,
and a key that stays listed leads into a circle of keys (`Schema.cycleMarks`). It
need not be part of one, as a circle that is found is noted all the way up to the
table where the ranking began (`Schema.cycleMarks_tail`). And a key that is part
of one need not stay, unless no table around it has two keys that lead back. -/
namespace SchemaShift

/-- The column is in the list of foreign keys. -/
def Table.Lists (t : Table) (c : Column) : Prop := ∃ column ∈ t.foreigns, c.name = some column

namespace Schema

open Ranking (Reaches Sole)

/-- Column `c` of table `a` has a foreign key to the table `b` of the schema. -/
def Key (s : Schema) (a : Table) (c : Column) (b : Table) : Prop := b ∈ s.tables.values ∧ a.KeyTo c b

/-- One foreign key of the table leads back to it, and no other does. -/
def SoleKey (s : Schema) (a : Table) : Prop :=
  ∃ c b, s.Key a c b ∧ s.KeysReach b a ∧ ∀ c' b', s.Key a c' b' → s.KeysReach b' a → c' = c

/-- What an arrangement of `s` marks in table `a`, of which it leaves `a'`. -/
structure CycleMarks (s : Schema) (a a' : Table) : Prop where
  same : ∃ rank foreigns flags, a' = { a with rank, foreigns, flags }
  /-- The flags are those of the keys that stay listed. -/
  reference : a'.flags.isReferenceCycle = true ↔ ∃ c b, s.Key a c b ∧ a'.Lists c
  constraint : a'.flags.isConstraintCycle = true ↔
    ∃ c b, s.Key a c b ∧ a'.Lists c ∧ c.isConstrained = true
  /-- A key that stays listed leads into a circle. -/
  into : ∀ c b, s.Key a c b → a'.Lists c → s.KeysCircle b
  /-- A key stays listed exactly if it leads back, where nothing leads into a circle from outside
  and no table on the way has a choice. -/
  exact : ∀ c b, s.Key a c b → (s.KeysCircle b → s.KeysReach b a) →
    (s.KeysReach b a → ∀ x, s.KeysReach a x → s.KeysReach x a → s.SoleKey x) →
      (a'.Lists c ↔ s.KeysReach b a)

variable {s : Schema}

/-! ### Lists and flags -/

/-- The references kept are those whose columns stay listed. -/
theorem WellNamed.listed_iff (h : s.WellNamed) {u v : Nat} {a b : Table} (ha : s.byName.get? u = some a)
    (hb : s.byName.get? v = some b) {c : Column} (hkey : a.KeyTo c b) :
    (ranked (s.markAt u) a).Lists c ↔ ∃ r ∈ references s.arrange.2.byName (s.arranged u a),
      referenceOf s.byName c = some r ∧ r.target = some v := by
  have hmem := mem_of_get? ha
  have haccount := s.account_arrange ha (h.live a hmem)
  obtain ⟨r, hr, hc, hreference, htarget⟩ := (h.keyTo_iff hmem hb).mp hkey
  obtain ⟨_, _, hname, _⟩ := referenceOf_some hreference
  have hretained : (ranked (s.markAt u) a).Lists c ↔ r.column ∈ (s.markAt u).retained := by
    constructor
    · rintro ⟨column, hcolumn, hname'⟩
      obtain rfl := Option.some.inj (hname.symm.trans hname')
      exact hcolumn
    · exact fun hcolumn => ⟨r.column, hcolumn, hname⟩
  rw [hretained, haccount.retained, List.mem_map]
  constructor
  · rintro ⟨r', hr', hcolumn⟩
    obtain ⟨c', hc', hreference'⟩ := (h.mem_references_iff hmem).mp (haccount.sublist.subset hr')
    obtain ⟨_, _, hname', _⟩ := referenceOf_some hreference'
    obtain rfl := h.column_unique hmem hc hc' hname (hcolumn ▸ hname')
    exact ⟨r', hr', hreference', by rw [Option.some.inj (hreference'.symm.trans hreference), htarget]⟩
  · rintro ⟨r', hr', hreference', _⟩
    exact ⟨r', hr', by rw [Option.some.inj (hreference'.symm.trans hreference)]⟩

/-- A kept reference that leads somewhere is a key that stays listed. -/
theorem WellNamed.any_kept_iff (h : s.WellNamed) {u : Nat} {a : Table} (ha : s.byName.get? u = some a)
    (p : Column → Bool) (q : Reference → Bool)
    (hpq : ∀ c r, referenceOf s.byName c = some r → q r = (r.target.isSome && p c)) :
    (references s.arrange.2.byName (s.arranged u a)).any q = true ↔
      ∃ c b, s.Key a c b ∧ (ranked (s.markAt u) a).Lists c ∧ p c = true := by
  have hmem := mem_of_get? ha
  have haccount := s.account_arrange ha (h.live a hmem)
  rw [List.any_eq_true]
  constructor
  · rintro ⟨r, hr, hq⟩
    have hr' := haccount.sublist.subset hr
    obtain ⟨c, _, hreference⟩ := (h.mem_references_iff hmem).mp hr'
    rw [hpq c r hreference, Bool.and_eq_true] at hq
    obtain ⟨v, hv⟩ := Option.isSome_iff_exists.mp hq.1
    obtain ⟨b, hb, _⟩ := target_live hr' hv
    obtain ⟨c', hkey, hreference'⟩ := h.keyTo_of_reference hmem hb hr' hv
    have hq' := hq.2
    have hpc : p c' = true := by
      have hboth := (hpq c r hreference).symm.trans (hpq c' r hreference')
      rw [hv, Option.isSome_some, Bool.true_and, Bool.true_and] at hboth
      rw [← hboth, hq']
    exact ⟨c', b, ⟨mem_of_get? hb, hkey⟩, (h.listed_iff ha hb hkey).mpr ⟨r, hr, hreference', hv⟩, hpc⟩
  · rintro ⟨c, b, ⟨hb, hkey⟩, hlists, hp⟩
    obtain ⟨v, hv⟩ := exists_get? hb
    obtain ⟨r, hr, hreference, htarget⟩ := (h.listed_iff ha hv hkey).mp hlists
    refine ⟨r, hr, ?_⟩
    rw [hpq c r hreference, htarget, hp]
    rfl

/-! ### Keys without a choice -/

/-- A table that is reached from a named one has a name and a position. -/
theorem WellNamed.of_reaches (h : s.WellNamed) {u w : Nat} {a : Table} (ha : s.byName.get? u = some a)
    (hname : a.name ≠ none) (huw : Reaches (allReferences s.byName) u w) :
    ∃ x, s.byName.get? w = some x ∧ x.name ≠ none := by
  rcases Relation.ReflTransGen.cases_tail huw with rfl | ⟨v, _, hvw⟩
  · exact ⟨a, ha, hname⟩
  · obtain ⟨b, x, hb, hx⟩ := get?_of_leads hvw
    exact ⟨x, hx, ((h.leads_iff hb hx).mp hvw).named⟩

/-- A sole key is a sole reference. -/
theorem WellNamed.sole (h : s.WellNamed) {w : Nat} {x : Table} (hx : s.byName.get? w = some x)
    (hname : x.name ≠ none) (hsole : s.SoleKey x) : Sole (allReferences s.byName) w := by
  have hmem := mem_of_get? hx
  obtain ⟨c, b, ⟨hb, hkey⟩, hback, honly⟩ := hsole
  obtain ⟨v, hv⟩ := exists_get? hb
  obtain ⟨r, hr, _, hreference, htarget⟩ := (h.keyTo_iff hmem hv).mp hkey
  rw [Sole, referencesOf_eq hx]
  refine ⟨r, hr, v, htarget, (h.reaches_iff hv hx hname).mpr hback, fun r' hr' v' htarget' hback' => ?_⟩
  obtain ⟨b', hb', _⟩ := target_live hr' htarget'
  obtain ⟨c', hkey', hreference'⟩ := h.keyTo_of_reference hmem hb' hr' htarget'
  obtain rfl := honly c' b' ⟨mem_of_get? hb', hkey'⟩ ((h.reaches_iff hb' hx hname).mp hback')
  exact Option.some.inj (hreference'.symm.trans hreference)

/-- A key that leads back stays listed where no table on the way has a choice. -/
theorem WellNamed.lists_of_back (h : s.WellNamed) {u : Nat} {a b : Table} (ha : s.byName.get? u = some a)
    {c : Column} (hkey : s.Key a c b) (hback : s.KeysReach b a)
    (hsole : ∀ x, s.KeysReach a x → s.KeysReach x a → s.SoleKey x) :
    (ranked (s.markAt u) a).Lists c := by
  have hmem := mem_of_get? ha
  obtain ⟨hb, hkey⟩ := hkey
  obtain ⟨v, hv⟩ := exists_get? hb
  have hname : a.name ≠ none := by
    have hjoins : s.Joins a b := ⟨hmem, hb, h.live a hmem, h.live b hb, c, hkey⟩
    rcases Relation.ReflTransGen.cases_tail hback with rfl | ⟨x, _, hx⟩
    · exact hjoins.named
    · exact hx.named
  obtain ⟨r, hr, _, hreference, htarget⟩ := (h.keyTo_iff hmem hv).mp hkey
  obtain ⟨_, _, hcolumn, _⟩ := referenceOf_some hreference
  have hu : u ∈ livePositions s.byName := mem_livePositions.mpr ⟨a, ha, h.live a hmem⟩
  rw [← referencesOf_eq ha] at hr
  have hkept := Ranking.rankAll_kept_of_sole (within_length s.byName) livePositions_lt hu hr htarget
    ((h.reaches_iff hv ha hname).mpr hback) fun w huw hwu => by
      obtain ⟨x, hx, hxname⟩ := h.of_reaches ha hname huw
      exact h.sole hx hxname (hsole x ((h.reaches_iff ha hx hxname).mp huw)
        ((h.reaches_iff hx ha hname).mp hwu))
  refine ⟨r.column, ?_, hcolumn⟩
  show r.column ∈ (s.markAt u).retained
  rw [markAt, marks_eq_rankAll]
  exact hkept

/-! ### The marks of a committed schema -/

/-- **What the marks of a committed schema say**, table by table, if they are clear beforehand. -/
theorem cycleMarks (s₀ : Schema) (clear set : Flags) {s : Schema} (hs : s = s₀.clearChanges clear set)
    (hmarks : ∀ t ∈ s.tables.values, t.entries.Ordered)
    (hnames : (s.tables.values.filterMap Table.name).Nodup)
    (hcolumns : ∀ t ∈ s.tables.values, t.entries.Distinct)
    (hclear : ∀ t ∈ s.tables.values, t.flags.isReferenceCycle = false ∧ t.flags.isConstraintCycle = false)
    {u : Nat} {a a' : Table} (ha : s.byName.get? u = some a) (ha' : s.arrange.2.tables.get? u = some a') :
    s.CycleMarks a a' := by
  have hw : s.WellNamed := (hs ▸ committed_clearChanges s₀ clear set : s.Committed).wellNamed hmarks
    hnames hcolumns
  have hmem := mem_of_get? ha
  have hlive := hw.live a hmem
  obtain ⟨hreference, hconstraint⟩ := hclear a hmem
  have haccount := s.account_arrange ha hlive
  rw [get?_arrange, ha, Option.map_some, arranged_of_live hlive] at ha'
  obtain rfl := Option.some.inj ha'
  refine ⟨⟨_, _, _, rfl⟩, ?reference, ?constraint, ?into, ?exact⟩
  case reference =>
    rw [isReferenceCycle_ranked_eq, hreference, Bool.or_false, haccount.cycle,
      hw.any_kept_iff ha (fun _ => true) _ fun c r _ => by rw [Bool.and_true]]
    simp
  case constraint =>
    rw [isConstraintCycle_ranked_eq, hconstraint, Bool.or_false, haccount.constrained]
    refine hw.any_kept_iff ha Column.isConstrained _ fun c r hr => ?_
    obtain ⟨_, _, _, heq⟩ := referenceOf_some hr
    rw [heq]
  case into =>
    rintro c b ⟨hb, hkey⟩ ⟨column, hcolumn, hname⟩
    exact hw.keysCircle_of_retained ha hb hkey hname hcolumn
  case exact =>
    intro c b hkey hinto hsole
    constructor
    · rintro ⟨column, hcolumn, hname⟩
      exact hinto (hw.keysCircle_of_retained ha hkey.1 hkey.2 hname hcolumn)
    · exact fun hback => hw.lists_of_back ha hkey hback (hsole hback)

/-- Two tables that name each other, and one that only names one of them. -/
def tail : Schema :=
  let naming (name target : String) : Table :=
    { name := some name
      columns := .owned { slots := [.owned ((Column.plain "key" .int).reference target "id")] } }
  { name := "app", version := 1
    tables := { slots := [.owned (naming "a" "b"), .owned (naming "b" "c"), .owned (naming "c" "b")] } }

/-- The table that is part of no circle keeps its key and is flagged. -/
theorem cycleMarks_tail : ∃ a b c a', (tail.clearChanges .empty .empty).byName.get? 0 = some a ∧
    (tail.clearChanges .empty .empty).arrange.2.tables.get? 0 = some a' ∧
    (tail.clearChanges .empty .empty).CycleMarks a a' ∧ (tail.clearChanges .empty .empty).Key a c b ∧
    ¬ (tail.clearChanges .empty .empty).KeysReach b a ∧ a'.Lists c ∧
    a'.flags.isReferenceCycle = true := by
  let c := (Column.plain "key" .int).reference "b" "id"
  let a : Table := Table.commit { name := some "a", columns := .owned { slots := [.owned c] } } .empty .empty
  let b : Table := Table.commit
    { name := some "b"
      columns := .owned { slots := [.owned ((Column.plain "key" .int).reference "c" "id")] } } .empty .empty
  have ha : (tail.clearChanges .empty .empty).byName.get? 0 = some a := by decide +kernel
  have ha' : (tail.clearChanges .empty .empty).arrange.2.tables.get? 0 = some
      { a with rank := 3, foreigns := ["key"], flags := a.flags.insert .referenceCycle } := by
    decide +kernel
  have hmarks : ∀ t ∈ (tail.clearChanges .empty .empty).tables.values, t.entries.sorted = false := by
    decide
  have hexact := cycleMarks tail .empty .empty rfl (fun t ht => Entries.ordered_of_unsorted (hmarks t ht))
    (by decide) (by unfold Entries.Distinct; decide) (by decide) ha ha'
  have hkey : (tail.clearChanges .empty .empty).Key a c b :=
    ⟨by decide, by decide, by decide, by decide⟩
  refine ⟨a, b, c, _, ha, ha', hexact, hkey, fun hback => ?_, ⟨"key", List.mem_singleton.mpr rfl, rfl⟩,
    by decide⟩
  -- No key names the table.
  have hnone : ∀ t ∈ (tail.clearChanges .empty .empty).tables.values, ∀ c ∈ t.foreignColumns,
      c.foreign.map ForeignKey.table ≠ a.name := by decide
  rcases Relation.ReflTransGen.cases_tail hback with heq | ⟨x, _, hx, _, _, _, c', hc'⟩
  · exact absurd heq (by decide)
  · exact hnone x hx c' hc'.column hc'.target

end Schema
end SchemaShift

import SchemaShift.Proofs.KeyGraph

/-! Creating tables in order.

Without a circle of foreign keys no key stays listed, and a table that is
referenced has a smaller rank, unless the table that references it has the
greatest one. Ranks are machine words: where the sums of ranks reach the greatest
word, the names decide, and they know nothing of keys
(`Schema.creationOrder_iff`). -/
namespace SchemaShift
namespace Schema

open Ranking (maxRank)

theorem bounded_markAt (s : Schema) (u : Nat) : (s.markAt u).rank ≤ maxRank := by
  have hext := Ranking.visitAll_extends (within_length s.byName) (Ranking.sound_replicate _)
    List.length_replicate (@livePositions_lt s.byName)
  have hmarks := marks_eq_rankAll s.byName
  rw [Ranking.rankAll] at hmarks
  rw [markAt, hmarks]
  exact hext.sound.bounded u

/-- The table at a place of the creation order, as it was and as it is left. -/
theorem exists_arranged {s : Schema} {i : Nat} {t : Table} (h : s.arrange.1[i]? = some t) :
    ∃ u a, s.byName.get? u = some a ∧ Entry.isLive a = true ∧ t = ranked (s.markAt u) a := by
  have hmem : t ∈ s.arrange.2.tables.values.filter Entry.isLive :=
    (stableSort_perm _ _).mem_iff.mp (List.mem_of_getElem? h)
  obtain ⟨hvalue, hlive⟩ := List.mem_filter.mp hmem
  obtain ⟨u, hu⟩ := List.getElem?_of_mem hvalue
  rw [Entries.getElem?_values, get?_arrange] at hu
  obtain ⟨a, ha, rfl⟩ := Option.map_eq_some_iff.mp hu
  rw [isLive_arranged] at hlive
  exact ⟨u, a, ha, hlive, arranged_of_live hlive u⟩

/-- An arrangement leaves keys as they are. -/
theorem keyTo_ranked {m m' : Mark} {a b : Table} {c : Column} :
    (ranked m a).KeyTo c (ranked m' b) ↔ a.KeyTo c b :=
  ⟨fun h => ⟨h.column, h.named, h.target⟩, fun h => ⟨h.column, h.named, h.target⟩⟩

/-- What a key names has a smaller rank where no key leads round. -/
theorem WellNamed.rank_below {s : Schema} (h : s.WellNamed) {u v : Nat} {a b : Table}
    (ha : s.byName.get? u = some a) (hb : s.byName.get? v = some b) {c : Column} (hkey : a.KeyTo c b)
    (hcircle : ¬ s.KeysCircle b) :
    (s.markAt v).rank < (s.markAt u).rank ∨ (s.markAt u).rank = maxRank := by
  obtain ⟨column, hname, hrefers⟩ := h.refers ha hb hkey
  refine hrefers.kept_or_below.resolve_left fun ⟨hkept, _⟩ => ?_
  exact hcircle (h.keysCircle_of_retained ha (mem_of_get? hb) hkey hname hkept)

/-- **In a schema without a circle of keys** a table stands behind one that it references, unless
the latter has the greatest rank and the greater name. -/
theorem creationOrder_iff (s₀ : Schema) (clear set : Flags) {s : Schema}
    (hs : s = s₀.clearChanges clear set) (hmarks : ∀ t ∈ s.tables.values, t.entries.Ordered)
    (hnames : (s.tables.values.filterMap Table.name).Nodup)
    (hcolumns : ∀ t ∈ s.tables.values, t.entries.Distinct)
    (hcircle : ∀ t, ¬ Relation.TransGen s.Joins t t) {i j : Nat} {a b : Table} {c : Column}
    (ha : s.arrange.1[i]? = some a) (hb : s.arrange.1[j]? = some b) (hkey : a.KeyTo c b) :
    j < i ↔ b.rank < maxRank ∨ Entry.nameLt b.name a.name = true := by
  have hw : s.WellNamed := (hs ▸ committed_clearChanges s₀ clear set : s.Committed).wellNamed hmarks
    hnames hcolumns
  obtain ⟨hi, hai⟩ := List.getElem?_eq_some_iff.mp ha
  obtain ⟨hj, hbj⟩ := List.getElem?_eq_some_iff.mp hb
  obtain ⟨u, t, ht, hlive, rfl⟩ := exists_arranged ha
  obtain ⟨v, t', ht', hlive', rfl⟩ := exists_arranged hb
  rw [keyTo_ranked] at hkey
  have hjoins : s.Joins t t' := ⟨mem_of_get? ht, mem_of_get? ht', hlive, hlive', c, hkey⟩
  -- Two tables of one name would be one table with a key to itself.
  have hne : t.name ≠ t'.name := fun hname => by
    have huv := hw.index ht ht' hname hjoins.named
    subst huv
    obtain rfl := Option.some.inj (ht.symm.trans ht')
    exact hcircle t (.single hjoins)
  have hij : i ≠ j := by
    rintro rfl
    have hname := congrArg Table.name (hai.symm.trans hbj)
    exact hne hname
  have hbelow : (s.markAt v).rank < (s.markAt u).rank ∨ (s.markAt u).rank = maxRank :=
    hw.rank_below ht ht' hkey fun ⟨x, _, hx⟩ => hcircle x hx
  have hmax := s.bounded_markAt v
  have hmax' := s.bounded_markAt u
  have hsorted := List.pairwise_iff_getElem.mp s.arrange_pairwise
  show _ ↔ (s.markAt v).rank < maxRank ∨ Entry.nameLt t'.name t.name = true
  constructor
  · intro hlt
    have hbefore := hsorted j i hj hi hlt
    rw [hai, hbj] at hbefore
    obtain ⟨_, hname⟩ : (s.markAt v).rank ≤ (s.markAt u).rank ∧
      ((s.markAt u).rank ≤ (s.markAt v).rank → Entry.nameLe t'.name t.name = true) := hbefore
    refine or_iff_not_imp_left.mpr fun hsaturated => ?_
    have hle := hname (by omega)
    rw [Entry.nameLt, Bool.not_eq_true']
    exact Bool.eq_false_iff.mpr fun h => hne (Entry.nameLe_antisymm h hle)
  · intro hcond
    by_contra hnot
    have hbefore := hsorted i j hi hj (by omega)
    rw [hai, hbj] at hbefore
    obtain ⟨hle, hname⟩ : (s.markAt u).rank ≤ (s.markAt v).rank ∧
      ((s.markAt v).rank ≤ (s.markAt u).rank → Entry.nameLe t.name t'.name = true) := hbefore
    rcases hcond with hlt | hlt
    · omega
    · rw [Entry.nameLt, hname (by omega)] at hlt
      exact absurd hlt (by decide)

/-- Users are created in front of the posts that belong to them. -/
theorem creationOrder_blog :
    ∃ a b c, (blog.clearChanges .empty .empty).arrange.1 = [b, a] ∧ a.name = some "posts" ∧ a.KeyTo c b ∧
      (0 < 1 ↔ b.rank < maxRank ∨ Entry.nameLt b.name a.name = true) := by
  let users : Table := ranked { rank := 1 } ((Table.plain "users").commit .empty .empty)
  let author := (Column.plain "author" .int64).reference "users" "id"
  let posts : Table := ranked { rank := 2 }
    { Table.plain "posts" with columns := .owned { slots := [.owned author] }, offset := 1 }
  have horder : (blog.clearChanges .empty .empty).arrange.1 = [users, posts] := by decide +kernel
  have hkey : posts.KeyTo author users := ⟨by decide, by decide, by decide⟩
  have hjoins : ∀ {a b}, (blog.clearChanges .empty .empty).Joins a b →
      a.name = some "posts" ∧ b.name = some "users" := by
    rintro a b ⟨ha, _, _, _, c, hkey⟩
    have hfrom : ∀ a ∈ (blog.clearChanges .empty .empty).tables.values, ∀ c ∈ a.foreignColumns,
        a.name = some "posts" ∧ c.foreign.map ForeignKey.table = some "users" := by decide
    obtain ⟨hname, htarget⟩ := hfrom a ha c hkey.column
    exact ⟨hname, hkey.target.symm.trans htarget⟩
  refine ⟨posts, users, author, horder, rfl, hkey, ?_⟩
  refine creationOrder_iff blog .empty .empty rfl ?marks (by decide) ?columns (fun t ht => ?circle)
    (i := 1) (j := 0) (by rw [horder]; rfl) (by rw [horder]; rfl) hkey
  case marks =>
    have hmarks : ∀ t ∈ (blog.clearChanges .empty .empty).tables.values, t.entries.sorted = false := by
      decide
    exact fun t ht => Entries.ordered_of_unsorted (hmarks t ht)
  case columns =>
    unfold Entries.Distinct
    decide
  case circle =>
    obtain ⟨_, hhead, _⟩ := Relation.TransGen.head'_iff.mp ht
    obtain ⟨_, _, htail⟩ := Relation.TransGen.tail'_iff.mp ht
    have hname := (hjoins hhead).1.symm.trans (hjoins htail).2
    exact absurd hname (by decide)

end Schema
end SchemaShift

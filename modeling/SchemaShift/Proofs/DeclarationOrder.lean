import SchemaShift.Proofs.Arrange
import Mathlib.Data.List.Forall2
import Mathlib.Data.Option.Basic

/-! Declaration order does not matter.

A ranking tells tables apart by their positions, and placeholders that sort
elsewhere shift these. Two rankings are therefore compared along a relation
between positions, `place`: where the references of related tables lead to
related tables, a run over the one list has a run over the other one beside it,
and both leave related tables with the same marks (`Ranking.runs_beside`). Sorted
by name, schemas with the same tables have the same live tables in the same
order, so the relation is there, on circles of keys as elsewhere
(`Schema.arrange_perm`). -/
namespace SchemaShift

/-- Lists that agree element by element are sorted alike. -/
theorem forall₂_stableSort {α β : Type} {le : α → α → Bool} {le' : β → β → Bool} {S : α → β → Prop}
    (hle : ∀ {a b a' b'}, S a a' → S b b' → le' a' b' = le a b) {l : List α} {l' : List β}
    (h : List.Forall₂ S l l') : List.Forall₂ S (stableSort le l) (stableSort le' l') := by
  have hinsert : ∀ {a a' l l'}, S a a' → List.Forall₂ S l l' →
      List.Forall₂ S (insertInOrder le a l) (insertInOrder le' a' l') := by
    intro a a' l l' ha h
    induction h with
    | nil => exact .cons ha .nil
    | cons hb hrest ih =>
      rw [insertInOrder, insertInOrder, hle ha hb]
      split
      · exact .cons ha (.cons hb hrest)
      · exact .cons hb ih
  induction h with
  | nil => exact .nil
  | cons ha _ ih => exact hinsert ha ih

namespace Ranking

/-! ### Two numberings -/

section Numberings
variable {place : Nat → Nat → Prop}

/-- The same key, to a table at a related position. -/
structure SameKey (place : Nat → Nat → Prop) (r r' : Reference) : Prop where
  targetName : r'.targetName = r.targetName
  target : Option.Rel place r.target r'.target
  column : r'.column = r.column
  constrained : r'.constrained = r.constrained

/-- Related tables have the same marks. -/
structure SameMarks (place : Nat → Nat → Prop) (marks marks' : Marks) : Prop where
  within : ∀ {u v}, place u v → u < marks.length ∧ v < marks'.length
  mark : ∀ {u v}, place u v → markOf marks' v = markOf marks u

/-- Two scans that are equally far. -/
structure SameScan (place : Nat → Nat → Prop) (scan scan' : Scan) : Prop where
  marks : SameMarks place scan.marks scan'.marks
  retained : scan'.retained = scan.retained
  previous : Option.Rel place scan.previous scan'.previous
  closed : scan'.closed = scan.closed

variable {marks marks' : Marks} {scan scan' : Scan} {r r' : Reference} {i j target target' : Nat}

theorem SameKey.target_of_none (h : SameKey place r r') (hr : r.target = none) : r'.target = none := by
  have htarget := h.target
  rw [hr] at htarget
  generalize r'.target = other at htarget ⊢
  cases htarget
  rfl

theorem SameKey.target_of_some (h : SameKey place r r') (hr : r.target = some target) :
    ∃ target', r'.target = some target' ∧ place target target' := by
  have htarget := h.target
  rw [hr] at htarget
  generalize r'.target = other at htarget ⊢
  cases htarget with
  | some hplace => exact ⟨_, rfl, hplace⟩

/-- A change of the marks of two related tables. -/
theorem SameMarks.modify (h : SameMarks place marks marks') (hplace : Relator.BiUnique place)
    (hij : place i j) (f : Mark → Mark) : SameMarks place (marks.modify i f) (marks'.modify j f) where
  within huv := by
    rw [List.length_modify, List.length_modify]
    exact h.within huv
  mark {u v} huv := by
    have hsame : v = j ↔ u = i :=
      ⟨fun hv => hplace.1 (hv ▸ huv) hij, fun hu => hplace.2 (hu ▸ huv) hij⟩
    obtain ⟨hi, hj⟩ := h.within hij
    rw [markOf_modify hi, markOf_modify hj, h.mark huv]
    simp only [hsame]

theorem SameMarks.count (h : SameMarks place marks marks') (hplace : Relator.BiUnique place)
    (hij : place i j) (htarget : place target target') :
    SameMarks place (count i target marks) (count j target' marks') := by
  rw [Ranking.count, Ranking.count, h.mark htarget]
  exact h.modify hplace hij _

theorem SameScan.keep (h : SameScan place scan scan') (hr : SameKey place r r') :
    SameScan place (scan.keep r) (scan'.keep r') where
  marks := h.marks
  retained := by rw [Scan.keep, Scan.keep, h.retained, hr.column]
  previous := h.previous
  closed := h.closed

theorem SameScan.close (h : SameScan place scan scan') (hplace : Relator.BiUnique place)
    (hij : place i j) (hr : SameKey place r r') : SameScan place (scan.close i r) (scan'.close j r') where
  marks := by
    rw [Scan.close, Scan.close, hr.constrained]
    exact h.marks.modify hplace hij _
  retained := (h.keep hr).retained
  previous := h.previous
  closed := rfl

theorem SameScan.absorb (h : SameScan place scan scan') (hplace : Relator.BiUnique place)
    (hij : place i j) (hr : SameKey place r r') (htarget : place target target')
    (hmarks : SameMarks place marks marks') (closed : Bool) :
    SameScan place (scan.absorb i r target marks closed) (scan'.absorb j r' target' marks' closed) := by
  have hcount : SameScan place { scan with marks := count i target marks }
      { scan' with marks := count j target' marks' } :=
    { h with marks := hmarks.count hplace hij htarget }
  cases closed with
  | true => exact hcount.close hplace hij hr
  | false => exact { hcount with previous := .some htarget }

/-- The target was the last one, or is now, under both numberings. -/
theorem previous_iff {previous previous' : Option Nat} (h : Option.Rel place previous previous')
    (hplace : Relator.BiUnique place) (htarget : place target target') :
    previous' = some target' ↔ previous = some target := by
  cases h with
  | none => exact iff_of_false (Option.some_ne_none _).symm (Option.some_ne_none _).symm
  | some hlast =>
    rw [Option.some_inj, Option.some_inj]
    exact ⟨fun heq => hplace.1 (heq ▸ hlast) htarget, fun heq => hplace.2 (heq ▸ hlast) htarget⟩

end Numberings

/-! ### A run beside a run -/

section Beside
variable {place : Nat → Nat → Prop} {references references' : List (List Reference)}

/-- **Every run has one beside it** under the other numbering. -/
theorem runs_beside (hplace : Relator.BiUnique place)
    (hkeys : ∀ {u v}, place u v →
      List.Forall₂ (SameKey place) (referencesOf references u) (referencesOf references' v)) :
    (∀ {i marks after closed}, Ranks references i marks after closed → ∀ {j marks'}, place i j →
      SameMarks place marks marks' →
        ∃ after', Ranks references' j marks' after' closed ∧ SameMarks place after after') ∧
    ∀ {i rs scan after}, Scans references i rs scan after → ∀ {j rs' scan'}, place i j →
      List.Forall₂ (SameKey place) rs rs' → SameScan place scan scan' →
        ∃ after', Scans references' j rs' scan' after' ∧ SameScan place after after' := by
  refine run_induct ?ranked ?fresh ?nil ?dangling ?back ?again ?call
  case ranked =>
    intro i marks hpos j marks' hij h
    exact ⟨marks', .ranked (by rwa [h.mark hij]), h⟩
  case fresh =>
    intro i marks scan h0 _ _ ih j marks' hij h
    have hbegun : SameScan place { marks := start i marks } { marks := start j marks' } :=
      ⟨h.modify hplace hij _, rfl, .none, rfl⟩
    obtain ⟨scan', hscans, hsame⟩ := ih hij (hkeys hij) hbegun
    have hfinish : SameMarks place (finish i scan) (finish j scan') := by
      rw [finish, finish, hsame.retained]
      exact hsame.marks.modify hplace hij _
    rw [← hsame.closed]
    exact ⟨_, .fresh (by rwa [h.mark hij]) (h.within hij).2 hscans, hfinish⟩
  case nil =>
    intro i scan j rs' scan' _ hrs h
    cases hrs
    exact ⟨scan', .nil, h⟩
  case dangling =>
    intro i r rest scan scan' hr _ ih j rs' other hij hrs h
    obtain ⟨r', rest', hkey, hrest, rfl⟩ := List.forall₂_cons_left_iff.mp hrs
    obtain ⟨after', hscans, hsame⟩ := ih hij hrest (h.keep hkey)
    exact ⟨after', .dangling (hkey.target_of_none hr) hscans, hsame⟩
  case back =>
    intro i r rest target scan scan' hr hc _ ih j rs' other hij hrs h
    obtain ⟨r', rest', hkey, hrest, rfl⟩ := List.forall₂_cons_left_iff.mp hrs
    obtain ⟨target', hr', htarget⟩ := hkey.target_of_some hr
    obtain ⟨after', hscans, hsame⟩ := ih hij hrest (h.close hplace hij hkey)
    exact ⟨after', .back hr' (by rwa [h.marks.mark htarget]) hscans, hsame⟩
  case again =>
    intro i r rest target scan scan' hr hc hp _ ih j rs' other hij hrs h
    obtain ⟨r', rest', hkey, hrest, rfl⟩ := List.forall₂_cons_left_iff.mp hrs
    obtain ⟨target', hr', htarget⟩ := hkey.target_of_some hr
    obtain ⟨after', hscans, hsame⟩ := ih hij hrest h
    exact ⟨after', .again hr' (by rwa [h.marks.mark htarget])
      ((previous_iff h.previous hplace htarget).mpr hp) hscans, hsame⟩
  case call =>
    intro i r rest target scan marks closed scan' hr hc hp _ _ ihr ih j rs' other hij hrs h
    obtain ⟨r', rest', hkey, hrest, rfl⟩ := List.forall₂_cons_left_iff.mp hrs
    obtain ⟨target', hr', htarget⟩ := hkey.target_of_some hr
    obtain ⟨marks', hranks, hmarks⟩ := ihr htarget h.marks
    obtain ⟨after', hscans, hsame⟩ := ih hij hrest (h.absorb hplace hij hkey htarget hmarks closed)
    exact ⟨after', .call hr' (by rwa [h.marks.mark htarget])
      (mt (previous_iff h.previous hplace htarget).mp hp) hranks hscans, hsame⟩

/-- **Ranking related tables in the same order** leaves them with the same marks. -/
theorem SameMarks.visitAll (hplace : Relator.BiUnique place)
    (hkeys : ∀ {u v}, place u v →
      List.Forall₂ (SameKey place) (referencesOf references u) (referencesOf references' v))
    (hw : Within references.length references) (hw' : Within references'.length references')
    {live live' : List Nat} (hlive : List.Forall₂ place live live') {marks marks' : Marks}
    (hs : Sound marks) (hs' : Sound marks') (hn : marks.length = references.length)
    (hn' : marks'.length = references'.length) (h : SameMarks place marks marks') :
    SameMarks place (visitAll references live marks) (visitAll references' live' marks') := by
  induction hlive generalizing marks marks' with
  | nil => exact h
  | cons hij _ ih =>
    obtain ⟨hi, hj⟩ := h.within hij
    have hrun := ranks_visit_length hw hs hn (hn ▸ hi)
    have hrun' := ranks_visit_length hw' hs' hn' (hn' ▸ hj)
    obtain ⟨after', hbeside, hsame⟩ := (runs_beside hplace hkeys).1 hrun hij h
    obtain ⟨rfl, _⟩ := ranks_unique hrun' hbeside
    have hext := ranks_extends hrun hs
    have hext' := ranks_extends hrun' hs'
    exact ih hext.sound hext'.sound (hext.length.trans hn) (hext'.length.trans hn') hsame

/-- The marks that all tables get do not depend on where the tables stand. -/
theorem sameMarks_rankAll (hplace : Relator.BiUnique place)
    (hkeys : ∀ {u v}, place u v →
      List.Forall₂ (SameKey place) (referencesOf references u) (referencesOf references' v))
    (hw : Within references.length references) (hw' : Within references'.length references')
    (hwithin : ∀ {u v}, place u v → u < references.length ∧ v < references'.length)
    {live live' : List Nat} (hlive : List.Forall₂ place live live') :
    SameMarks place (rankAll references live) (rankAll references' live') := by
  refine SameMarks.visitAll hplace hkeys hw hw' hlive (sound_replicate _) (sound_replicate _)
    List.length_replicate List.length_replicate ⟨fun huv => ?_, fun _ => ?_⟩
  · rw [List.length_replicate, List.length_replicate]
    exact hwithin huv
  · rw [markOf_replicate, markOf_replicate]

end Beside
end Ranking

namespace Schema

/-! ### Two collections with the same live tables -/

/-- Sorted tables, the live ones of which are the same and have different names. -/
structure SameLive (es es' : Entries Table) : Prop where
  ordered : es.Ordered
  ordered' : es'.Ordered
  live : es.values.filter Entry.isLive = es'.values.filter Entry.isLive
  names : ((es.values.filter Entry.isLive).map Entry.name).Nodup

/-- One live table stands at the two positions. -/
def Placed (es es' : Entries Table) (u v : Nat) : Prop :=
  ∃ t, es.get? u = some t ∧ es'.get? v = some t ∧ Entry.isLive t = true

theorem index_unique {es : Entries Table} (h : ((es.values.filter Entry.isLive).map Entry.name).Nodup)
    {u v : Nat} {t : Table} (hu : es.get? u = some t) (hv : es.get? v = some t)
    (hlive : Entry.isLive t = true) : u = v := by
  have hpair := List.pairwise_filter.mp (h.of_map _)
  have hsame : ∀ {u v : Nat}, es.get? u = some t → es.get? v = some t → ¬ u < v := by
    intro u v hu hv hlt
    rw [← Entries.getElem?_values] at hu hv
    obtain ⟨hul, hut⟩ := List.getElem?_eq_some_iff.mp hu
    obtain ⟨hvl, hvt⟩ := List.getElem?_eq_some_iff.mp hv
    have hne := List.pairwise_iff_getElem.mp hpair u v hul hvl hlt
    rw [hut, hvt] at hne
    exact hne hlive hlive rfl
  have huv := hsame hu hv
  have hvu := hsame hv hu
  omega

namespace SameLive

variable {es es' : Entries Table}

theorem symm (h : SameLive es es') : SameLive es' es :=
  ⟨h.ordered', h.ordered, h.live.symm, h.live ▸ h.names⟩

theorem biUnique (h : SameLive es es') : Relator.BiUnique (Placed es es') := by
  constructor
  · rintro u u' v ⟨t, hu, hv, hlive⟩ ⟨t', hu', hv', _⟩
    obtain rfl := Option.some.inj (hv.symm.trans hv')
    exact index_unique h.names hu hu' hlive
  · rintro u v v' ⟨t, hu, hv, hlive⟩ ⟨t', hu', hv', _⟩
    obtain rfl := Option.some.inj (hu.symm.trans hu')
    exact index_unique h.symm.names hv hv' hlive

theorem mem (h : SameLive es es') {u : Nat} {t : Table} (hu : es.get? u = some t)
    (hlive : Entry.isLive t = true) : t ∈ es'.values.filter Entry.isLive := by
  rw [← h.live, List.mem_filter]
  exact ⟨List.mem_of_getElem? ((es.getElem?_values u).trans hu), hlive⟩

theorem findLive?_ne_none (h : SameLive es es') {name : String} {u : Nat} (hu : es.findLive? name = some u) :
    es'.findLive? name ≠ none := by
  obtain ⟨t, ht, hname, hlive⟩ := Entries.findLive?_some hu
  exact Entries.findLive?_ne_none h.ordered' (List.mem_filter.mp (h.mem ht hlive)).1 hname hlive

/-- A name is found at related positions. -/
theorem findLive? (h : SameLive es es') (name : String) :
    Option.Rel (Placed es es') (es.findLive? name) (es'.findLive? name) := by
  cases hu : es.findLive? name with
  | none =>
    have hnone : es'.findLive? name = none := by
      by_contra hne
      obtain ⟨v, hv⟩ := Option.ne_none_iff_exists'.mp hne
      exact h.symm.findLive?_ne_none hv hu
    rw [hnone]
    exact .none
  | some u =>
    obtain ⟨v, hv⟩ := Option.ne_none_iff_exists'.mp (h.findLive?_ne_none hu)
    obtain ⟨t, ht, hname, hlive⟩ := Entries.findLive?_some hu
    obtain ⟨t', ht', hname', hlive'⟩ := Entries.findLive?_some hv
    -- Two live tables of one name are one table.
    obtain rfl := List.inj_on_of_nodup_map h.names (h.symm.mem ht' hlive') (h.live ▸ h.mem ht hlive)
      (hname'.trans hname.symm)
    rw [hv]
    exact .some ⟨t', ht, ht', hlive⟩

theorem sameKey (h : SameLive es es') (c : Column) :
    Option.Rel (Ranking.SameKey (Placed es es')) (referenceOf es c) (referenceOf es' c) := by
  unfold referenceOf
  split
  · exact .some ⟨rfl, h.findLive? _, rfl, rfl⟩
  · exact .none

theorem references (h : SameLive es es') (t : Table) :
    List.Forall₂ (Ranking.SameKey (Placed es es')) (references es t) (references es' t) := by
  unfold Schema.references
  refine forall₂_stableSort (fun ha hb => by rw [ha.targetName, hb.targetName]) ?_
  refine List.rel_filterMap (R := Eq) ?_ (List.forall₂_eq_eq_eq ▸ rfl)
  rintro c _ rfl
  exact h.sameKey c

/-- The live tables are the same, one after the other, and stand at related positions. -/
theorem liveTables (h : SameLive es es') :
    List.Forall₂ (fun a a' : Table × Nat => a.1 = a'.1 ∧ Entry.isLive a.1 = true ∧ Placed es es' a.2 a'.2)
      (liveTables es) (liveTables es') := by
  have hfst : (Schema.liveTables es).map Prod.fst = (Schema.liveTables es').map Prod.fst := by
    rw [map_fst_liveTables, map_fst_liveTables, h.live]
  have hlength := congrArg List.length hfst
  rw [List.length_map, List.length_map] at hlength
  refine List.forall₂_iff_get.mpr ⟨hlength, fun i hi hi' => ?_⟩
  have htable : (Schema.liveTables es)[i].1 = (Schema.liveTables es')[i].1 := by
    have hat := congrArg (fun tables => tables[i]?) hfst
    simpa [hi, hi'] using hat
  obtain ⟨ht, hlive⟩ := mem_liveTables.mp (List.getElem_mem hi)
  obtain ⟨ht', _⟩ := mem_liveTables.mp (List.getElem_mem hi')
  exact ⟨htable, hlive, _, ht, htable ▸ ht', hlive⟩

theorem livePositions (h : SameLive es es') :
    List.Forall₂ (Placed es es') (livePositions es) (livePositions es') := by
  unfold Schema.livePositions
  rw [List.forall₂_map_left_iff, List.forall₂_map_right_iff]
  exact h.liveTables.imp fun _ _ ha => ha.2.2

/-- The ranking finds the same about the tables at related positions. -/
theorem marks (h : SameLive es es') : Ranking.SameMarks (Placed es es') (marks es) (marks es') := by
  rw [marks_eq_rankAll, marks_eq_rankAll]
  refine Ranking.sameMarks_rankAll h.biUnique (fun huv => ?_) (within_length es) (within_length es')
    (fun huv => ?_) h.livePositions
  · obtain ⟨t, hu, hv, _⟩ := huv
    rw [referencesOf_map _ hu, referencesOf_map _ hv]
    exact h.references t
  · obtain ⟨t, hu, hv, hlive⟩ := huv
    exact ⟨livePositions_lt _ (mem_livePositions.mpr ⟨t, hu, hlive⟩),
      livePositions_lt _ (mem_livePositions.mpr ⟨t, hv, hlive⟩)⟩

end SameLive

/-! ### The arrangement -/

theorem live_byName (s : Schema) : s.byName.values.filter Entry.isLive =
    stableSort (fun a b => Entry.nameLe (Entry.name a) (Entry.name b)) (s.tables.values.filter Entry.isLive) := by
  have hvalues : s.byName.values =
      stableSort (fun a b => Entry.nameLe (Entry.name a) (Entry.name b)) s.tables.values := by
    symm
    exact stableSort_map Slot.value s.tables.slots fun _ _ => rfl
  rw [hvalues]
  exact filter_stableSort (Entry.nameLe_isPreorder.comap Entry.name) _ _

/-- Sorting by different names tells in which order the tables stand. -/
theorem sameLive_byName {s s' : Schema} (hperm : s.tables.values.Perm s'.tables.values)
    (hnames : ((s.tables.values.filter Entry.isLive).map Entry.name).Nodup) :
    SameLive s.byName s'.byName where
  ordered := s.tables.ordered_sort
  ordered' := s'.tables.ordered_sort
  live := by
    have hle : IsPreorder fun a b : Table => Entry.nameLe (Entry.name a) (Entry.name b) :=
      Entry.nameLe_isPreorder.comap Entry.name
    rw [live_byName, live_byName]
    refine List.Perm.eq_of_pairwise (fun a b ha hb hab hba => ?_) (sorted_stableSort hle _)
      (sorted_stableSort hle _) ?_
    · rw [mem_stableSort] at ha hb
      exact List.inj_on_of_nodup_map hnames ha ((hperm.filter _).mem_iff.mpr hb) (Entry.nameLe_antisymm hab hba)
    · exact ((stableSort_perm _ _).trans (hperm.filter _)).trans (stableSort_perm _ _).symm
  names := by
    rw [live_byName]
    exact ((stableSort_perm _ _).map _).nodup_iff.mpr hnames

/-- **The arrangement does not depend on declaration order.** Schemas with the same tables, in whatever
order and with whatever placeholders between them, are arranged into the same list: the same tables in
the same order, with the same ranks, listed keys and flags. -/
theorem arrange_perm {s s' : Schema} (hperm : s.tables.values.Perm s'.tables.values)
    (hnames : ((s.tables.values.filter Entry.isLive).map Entry.name).Nodup) : s.arrange.1 = s'.arrange.1 := by
  have h := sameLive_byName hperm hnames
  have hlive : s.arrange.2.tables.values.filter Entry.isLive = s'.arrange.2.tables.values.filter Entry.isLive := by
    rw [← map_fst_liveTables, ← map_fst_liveTables, liveTables_arrange, liveTables_arrange, List.map_map,
      List.map_map, ← List.forall₂_eq_eq_eq, List.forall₂_map_left_iff, List.forall₂_map_right_iff]
    refine h.liveTables.imp fun a a' ⟨htable, hlive, hplaced⟩ => ?_
    have hmark : s'.markAt a'.2 = s.markAt a.2 := h.marks.mark hplaced
    show s.arranged a.2 a.1 = s'.arranged a'.2 a'.1
    rw [← htable, arranged_of_live hlive, arranged_of_live hlive, hmark]
  exact congrArg (stableSort _) hlive

/-- Teams and users name each other, and a rename in the log takes the name of the users. -/
def ring : Schema :=
  let owner := (Column.plain "owner" .int64).reference "users" "id"
  let team := (Column.plain "team" .int64).reference "teams" "id"
  let author := (Column.plain "author" .int64).reference "users" "id"
  let users : Table := { Table.plain "users" with
    columns := .owned { slots := [.owned team] }, foreigns := ["team"] }
  let teams : Table := { Table.plain "teams" with
    columns := .owned { slots := [.owned owner] }, foreigns := ["owner"] }
  let posts : Table := { Table.plain "posts" with
    columns := .owned { slots := [.owned author] }, foreigns := ["author"] }
  { name := "ring", version := 1, tables := { slots :=
    [.owned (.renameOf "people" "users"), .owned users, .shared posts, .owned teams, .owned (.dropOf "old")] } }

/-- The same tables from the last one to the first, so that the rename sorts behind the users. -/
def turned : Schema := { ring with tables := { ring.tables with slots := ring.tables.slots.reverse } }

theorem arrange_perm_ring :
    ring.tables.values.Perm turned.tables.values ∧
      ((ring.tables.values.filter Entry.isLive).map Entry.name).Nodup ∧
      livePositions ring.byName = [1, 2, 4] ∧ livePositions turned.byName = [1, 2, 3] ∧
      (turned.arrange.1.map fun t => (t.name, t.rank, t.foreigns)) =
        [(some "teams", 1, ["owner"]), (some "users", 2, ["team"]), (some "posts", 3, ["author"])] ∧
      ring.arrange.1 = turned.arrange.1 := by
  have hperm : ring.tables.values.Perm turned.tables.values := (List.reverse_perm _).symm
  have hnames : ((ring.tables.values.filter Entry.isLive).map Entry.name).Nodup := by decide
  exact ⟨hperm, hnames, by decide +kernel, by decide +kernel, by decide +kernel, arrange_perm hperm hnames⟩

end Schema
end SchemaShift

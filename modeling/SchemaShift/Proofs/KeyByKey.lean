import SchemaShift.Proofs.ArrangedTrace
import SchemaShift.Proofs.PoolCalls

/-! A trace of foreign keys, key by key.

A trace resolves keys in graphs that they share, and rewrites them afterwards, one after
the other, by the position of the table and the name of the column. Still every key gets
the names that its own traces lead to, in graphs of the schema before the call that are
built for it alone (`Schema.outcome_eq_own`), whatever becomes of the other keys. Nothing
else changes, and where nothing is reported every key names a live table
(`Schema.traceForeignWith_keys`). -/
namespace SchemaShift

/-- What a name became, by a graph of its own. -/
def RenameGraph.ownTrace? {ε : Type} [Entry ε] (es : Entries ε) (offset : Nat) (p : NodePool Fate)
    (capacity : UInt64) (name : String) : Option Fate :=
  let (g, p) := RenameGraph.ofEntries es offset p capacity
  g.trace? p name

/-- Entries of the same type. -/
def Entries.SameType {ε : Type} (es es' : Entries ε) : Prop := es'.typeName = es.typeName ∧ es'.size = es.size

theorem Entries.sameType_modify {ε : Type} (es : Entries ε) (i : Nat) (f : ε → ε) :
    es.SameType (es.modify i f) := by
  unfold modify
  split <;> exact ⟨rfl, rfl⟩

namespace Schema

variable {s : Schema} {t t' : Table}

/-! ### The outcome of a key -/

/-- What becomes of a key by its own traces. A table that is gone or cannot be found leaves the column
alone, and so does a column that is gone. -/
def ownOutcome (s : Schema) (p q : NodePool Fate) (capacity : UInt64) (key : ForeignKey) : Outcome :=
  match (RenameGraph.ownTrace? s.tables s.offset p capacity key.table).getD (.name key.table) with
  | .dropped => ⟨key.table, key.column, some (.dropped key.table)⟩
  | .name target =>
    match s.find? target with
    | none => ⟨target, key.column, some (.entryNotFound target)⟩
    | some t =>
      match (RenameGraph.ownTrace? t.entries t.offset q capacity key.column).getD (.name key.column) with
      | .dropped => ⟨target, key.column, some (.dropped (target ++ "." ++ key.column))⟩
      | .name column => ⟨target, column, none⟩

/-- **A key is resolved by its own traces.** -/
theorem outcome_eq_own (s : Schema) {p q : NodePool Fate} (hp : p.Valid) (hq : q.Valid) (capacity : UInt64)
    (key : ForeignKey) : s.outcome key = s.ownOutcome p q capacity key := by
  have htable : (RenameGraph.ownTrace? s.tables s.offset p capacity key.table).getD (.name key.table) =
      s.tableFate key.table := (RenameGraph.records_ofEntries s.tables s.offset hp capacity).trace? key.table
  have hcolumn : ∀ t : Table, (RenameGraph.ownTrace? t.entries t.offset q capacity key.column).getD
      (.name key.column) = t.columnFate key.column := fun t =>
    (RenameGraph.records_ofEntries t.entries t.offset hq capacity).trace? key.column
  cases hfate : s.tableFate key.table with
  | dropped => simp only [outcome, ownOutcome, htable, hfate]
  | name target =>
    cases hfind : s.find? target with
    | none => simp only [outcome, ownOutcome, htable, hfate, hfind]
    | some t =>
      cases hnew : t.columnFate key.column <;>
        simp only [outcome, ownOutcome, htable, hcolumn, hfate, hfind, hnew]

/-- A key without a fault has a live table. -/
theorem exists_target {key : ForeignKey} (h : (s.outcome key).fault = none) :
    ∃ target ∈ s.tables.values, Entry.isLive target = true ∧ target.name = some (s.outcome key).table := by
  cases hfate : s.tableFate key.table with
  | dropped => simp [outcome, hfate] at h
  | name name =>
    have htable : (s.outcome key).table = name := tableFate_name hfate
    cases hfind : s.find? name with
    | none => simp [outcome, hfate, hfind] at h
    | some target =>
      obtain ⟨hname, hlive⟩ := Entries.live?_some hfind
      exact ⟨target, mem_of_find? hfind, hlive, htable ▸ hname⟩

theorem isSome_newName? (old new : String) : (newName? old new).isSome = decide (new ≠ old) := by
  unfold newName?
  split <;> simp [*]

/-- A rewrite is asked for exactly where the key changes. -/
theorem isSome_asked? (s : Schema) (site : Site) :
    (s.asked? site).isSome = decide (s.settle site.key ≠ site.key) := by
  have hsettle : s.settle site.key ≠ site.key ↔
      (s.outcome site.key).table ≠ site.key.table ∨ (s.outcome site.key).column ≠ site.key.column := by
    rw [← not_and_or]
    refine not_congr ⟨fun h => ?_, fun ⟨htable, hcolumn⟩ => ?_⟩
    · exact ⟨congrArg ForeignKey.table h, congrArg ForeignKey.column h⟩
    · rw [settle, htable, hcolumn]
  rw [asked?, renaming?, decide_eq_decide.mpr hsettle, Bool.decide_or, ← isSome_newName?, ← isSome_newName?]
  unfold Rewrite.isNeeded
  split
  · next h => exact h.symm
  · next h => exact (Bool.eq_false_iff.mpr h).symm

/-- A static table refuses once for every key of it that needs other names. -/
theorem refused_eq (s : Schema) (t : Table) : s.refused t =
    if t.isStatic then ((keysOf t).filter fun key => s.settle key ≠ key).map fun _ =>
      .staticData (Entry.displayName t)
    else [] := by
  rw [refused, ← map_key_sitesOf 0 t]
  congr 1
  induction sitesOf 0 t with
  | nil => rfl
  | cons site rest ih =>
    have hasked := s.isSome_asked? site
    rw [List.filterMap_cons, List.map_cons, List.filter_cons, ← hasked]
    cases s.asked? site with
    | none => exact ih
    | some r => exact congrArg (_ :: ·) ih

/-! ### What stays -/

theorem sameType_foldl (t : Table) (rs : List Rewrite) : t.entries.SameType (rs.foldl retarget t).entries := by
  induction rs generalizing t with
  | nil => exact ⟨rfl, rfl⟩
  | cons r rest ih =>
    have hone : t.entries.SameType (retarget t r).entries := by
      rcases retarget_cases t r with ⟨hstay, _⟩ | ⟨i, _, _, hmove⟩
      · rw [hstay]
        exact ⟨rfl, rfl⟩
      · rw [hmove]
        exact t.entries.sameType_modify i _
    obtain ⟨hname, hsize⟩ := ih (retarget t r)
    exact ⟨hname.trans hone.1, hsize.trans hone.2⟩

theorem sameType_applyRewrites (s : Schema) (rs : List Rewrite) :
    s.tables.SameType (s.applyRewrites rs).1.tables := by
  induction rs generalizing s with
  | nil => exact ⟨rfl, rfl⟩
  | cons r rest ih =>
    have hone : s.tables.SameType (s.applyRewrite r).1.tables := by
      unfold applyRewrite
      split
      · exact ⟨rfl, rfl⟩
      · split
        · exact ⟨rfl, rfl⟩
        · split
          · exact ⟨rfl, rfl⟩
          · exact s.tables.sameType_modify _ _
    obtain ⟨hname, hsize⟩ := ih (s.applyRewrite r).1
    exact ⟨hname.trans hone.1, hsize.trans hone.2⟩

/-- What a trace makes of a table: the keys of named live columns are settled, if it is live and has its own
columns, and the rest of it and every other table is as it was. -/
structure Rekeyed (s : Schema) (t t' : Table) : Prop extends Retraced s t t' where
  sameType : t.entries.SameType t'.entries

theorem rekeyed_traced (s : Schema) (ho : t.entries.Ordered) (hdistinct : t.entries.Distinct) :
    Rekeyed s t (s.traced t) := by
  refine ⟨retraced_traced s ho hdistinct, ?_⟩
  unfold traced
  split
  · exact sameType_foldl t _
  · exact ⟨rfl, rfl⟩

/-! ### The keys afterwards -/

theorem keysOf_settled (h : t'.entries.values = t.entries.values.map s.settleColumn) :
    keysOf t' = (keysOf t).map s.settle := by
  rw [← map_key_sitesOf 0 t', ← map_key_sitesOf 0 t, sitesOf_settled h, List.map_map, List.map_map]
  rfl

/-- Where nothing is to be reported of a table, its keys name live tables afterwards. -/
theorem Retraced.exists_target (h : Retraced s t t') (hlive : Entry.isLive t = true)
    (hreports : s.reports t = []) (hrefused : s.refused t = []) {key : ForeignKey} (hkey : key ∈ keysOf t') :
    ∃ target ∈ s.tables.values, Entry.isLive target = true ∧ target.name = some key.table := by
  obtain ⟨old, hold, hsettle⟩ : ∃ old ∈ keysOf t, s.settle old = key := by
    by_cases hstatic : t.isStatic = true
    · rw [h.stays (.inr hstatic)] at hkey
      rw [refused_eq, if_pos hstatic, List.map_eq_nil_iff, List.filter_eq_nil_iff] at hrefused
      exact ⟨key, hkey, by simpa using hrefused key hkey⟩
    · rw [keysOf_settled (h.settled hlive (by simpa using hstatic))] at hkey
      exact List.mem_map.mp hkey
  have hnone := List.filterMap_eq_nil_iff.mp hreports old hold
  obtain ⟨target, hmem, htarget, hname⟩ := Schema.exists_target hnone
  exact ⟨target, hmem, htarget, hsettle ▸ hname⟩

/-! ### The whole trace -/

/-- What a trace of foreign keys makes of a schema, and what it reports. -/
structure KeysTraced (s s' : Schema) (faults : List Fault) : Prop where
  /-- What becomes of a key is known by its own traces. -/
  own : ∀ {p q : NodePool Fate}, p.Reached → q.Reached → ∀ capacity key,
    s.outcome key = s.ownOutcome p q capacity key
  tables : List.Forall₂ (Rekeyed s) s.tables.values s'.tables.values
  sameType : s.tables.SameType s'.tables
  rest : { s' with tables := s.tables } = s
  /-- The faults of the keys, and then the refusals of the static tables, in order. -/
  reported : faults = ((s.tables.values.filter Entry.isLive).flatMap fun t =>
      (keysOf t).filterMap fun key => (s.outcome key).fault) ++
    ((s.tables.values.filter Entry.isLive).filter Table.isStatic).flatMap fun t =>
      ((keysOf t).filter fun key => s.settle key ≠ key).map fun _ => .staticData (Entry.displayName t)
  resolved : faults = [] → ∀ t ∈ s'.tables.values, Entry.isLive t = true → ∀ key ∈ keysOf t,
    ∃ target ∈ s'.tables.values, Entry.isLive target = true ∧ target.name = some key.table

/-- **Every key is traced on its own**, over any pool, where the live columns of a table have different
names. That the marks are true is so in everything that the operations make. -/
theorem traceForeignWith_keys {p : NodePool Fate} (hp : p.Reached) (capacity : UInt64)
    (hmarks : ∀ t ∈ s.tables.values, t.entries.Ordered) (hcolumns : ∀ t ∈ s.tables.values, t.entries.Distinct) :
    KeysTraced s (s.traceForeignWith p capacity).1 (s.traceForeignWith p capacity).2.1 := by
  obtain ⟨htables, hfaults⟩ := traceForeignWith_tables hmarks hp.valid capacity
  have hrewrites := (s.traceForeignWith_eq hp.valid capacity).1
  have hrekeyed : ∀ t ∈ s.tables.values, Rekeyed s t (s.traced t) := fun t ht =>
    rekeyed_traced s (hmarks t ht) (hcolumns t ht)
  have hrefused : (s.tables.values.filter Entry.isLive).flatMap s.refused =
      ((s.tables.values.filter Entry.isLive).filter Table.isStatic).flatMap fun t =>
        ((keysOf t).filter fun key => s.settle key ≠ key).map fun _ => .staticData (Entry.displayName t) := by
    induction s.tables.values.filter Entry.isLive with
    | nil => rfl
    | cons t rest ih =>
      rw [List.flatMap_cons, List.filter_cons, refused_eq, ih]
      split <;> rfl
  refine ⟨fun hp hq capacity => s.outcome_eq_own hp.valid hq.valid capacity, ?tables, ?sameType, ?rest, ?reported,
    fun hnone t' ht' hlive key hkey => ?resolved⟩
  case tables =>
    rw [htables, List.forall₂_map_right_iff, List.forall₂_same]
    exact hrekeyed
  case sameType =>
    rw [hrewrites]
    exact s.sameType_applyRewrites _
  case rest =>
    rw [hrewrites]
    exact (s.applyRewrites_rest _).1
  case reported => rw [hfaults, hrefused]; rfl
  case resolved =>
    rw [htables] at ht' ⊢
    obtain ⟨t, ht, rfl⟩ := List.mem_map.mp ht'
    have hlive : Entry.isLive t = true := (congrArg Prod.snd (s.entry_traced t)).symm.trans hlive
    have hmem : t ∈ s.tables.values.filter Entry.isLive := List.mem_filter.mpr ⟨ht, hlive⟩
    rw [hfaults, List.append_eq_nil_iff, List.flatMap_eq_nil_iff, List.flatMap_eq_nil_iff] at hnone
    obtain ⟨target, htarget, htlive, hname⟩ :=
      (hrekeyed t ht).exists_target hlive (hnone.1 t hmem) (hnone.2 t hmem) hkey
    have hentry := s.entry_traced target
    exact ⟨s.traced target, List.mem_map_of_mem htarget, (congrArg Prod.snd hentry).trans htlive,
      (congrArg Prod.fst hentry).trans hname⟩

/-- Users are called accounts now and have lost a column and renamed another one. The keys of posts name
both columns and a table that never was, and the static feeds name users, too. -/
def partly : Schema :=
  let key (name table column : String) := (Column.plain name .int64).reference table column
  let accounts : Table := { Table.plain "accounts" with
    columns := .owned { slots := [.owned (.plain "key" .int64), .owned (.dropOf "nick"),
      .owned (.renameOf "id" "key")] }, offset := 1 }
  let posts : Table := { Table.plain "posts" with
    columns := .owned { slots := [.owned (key "by" "users" "nick"), .owned (key "via" "ghosts" "id"),
      .owned (key "author" "users" "id")] } }
  let feeds : Table := { Table.plain "feeds" with
    columns := .shared { slots := [.owned (key "owner" "users" "id")] } }
  { name := "app", version := 2, offset := 3, tables := { slots :=
    [.owned posts, .owned accounts, .owned feeds, .owned (.renameOf "users" "accounts")] } }

/-- The first key is rewritten and reported, the second one is reported and stays, the third one is rewritten,
and the static table refuses. -/
theorem traceForeignWith_keys_partly :
    KeysTraced partly (partly.traceForeignWith (.ofChunkSize 1) 0).1
        (partly.traceForeignWith (.ofChunkSize 1) 0).2.1 ∧
      (partly.traceForeignWith (.ofChunkSize 1) 0).2.1.map Fault.message =
        [Fault.message (.dropped "accounts.nick"), Fault.message (.entryNotFound "ghosts"),
          Fault.message (.staticData "feeds")] ∧
      (partly.traceForeignWith (.ofChunkSize 1) 0).1.tables.values.map keysOf =
        [[⟨"accounts", "nick", none, none⟩, ⟨"ghosts", "id", none, none⟩, ⟨"accounts", "key", none, none⟩], [],
          [⟨"users", "id", none, none⟩], []] := by
  have hmarks : ∀ t ∈ partly.tables.values, t.entries.sorted = false := by decide
  have hkeys := traceForeignWith_keys (s := partly) (.start 1) 0
    (fun t ht => Entries.ordered_of_unsorted (hmarks t ht)) (by unfold Entries.Distinct; decide)
  exact ⟨hkeys, (congrArg (List.map Fault.message) hkeys.reported).trans (by decide +kernel), by decide +kernel⟩

end Schema
end SchemaShift

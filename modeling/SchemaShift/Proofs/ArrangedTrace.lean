import SchemaShift.Proofs.Rearrange
import SchemaShift.Proofs.TraceAgain

/-! Tracing after an arrangement.

An arrangement sorts the one list whose part behind `offset` is the pending log,
and the number stays. So other entries may count as pending afterwards, and of
those that do the order may be another one. All that a trace takes from the log
is what became of the tables that keys name: a key has the outcome that it had
exactly if its table has the fate that it had (`Schema.outcome_arrange_iff`). Where
that is so for every key, a trace finds the same faults and leaves the same
columns (`Schema.traceForeign_arrange`); it is so wherever no drop and no rename is
pending (`Schema.tableFate_of_live`). -/
namespace SchemaShift
namespace Schema

variable {s : Schema} {t : Table} {u : Nat} {key : ForeignKey}

/-! ### One key -/

/-- A name finds the table that it found, as the arrangement leaves it. -/
theorem find?_arrange (ho : s.tables.Ordered) (name : String) :
    ∃ u, s.arrange.2.find? name = (s.find? name).map (s.arranged u) := by
  have hsort : s.byName.live? name = s.find? name := Entries.live?_sort ho name
  rw [find?, Entries.live?, ← byName_arrange, findLive?_arrange, byName_arrange, ← hsort, Entries.live?]
  cases s.byName.findLive? name with
  | none => exact ⟨0, rfl⟩
  | some u => exact ⟨u, s.get?_arrange u⟩

theorem entries_arranged (s : Schema) (u : Nat) (t : Table) : (s.arranged u t).entries = t.entries := by
  unfold arranged
  split <;> rfl

theorem columnFate_arranged (s : Schema) (u : Nat) (t : Table) : (s.arranged u t).columnFate = t.columnFate := by
  unfold arranged
  split <;> rfl

theorem outcome_of_fate (ho : s.tables.Ordered)
    (h : s.arrange.2.tableFate key.table = s.tableFate key.table) : s.arrange.2.outcome key = s.outcome key := by
  rw [outcome, outcome, h]
  cases s.tableFate key.table with
  | dropped => rfl
  | name target =>
    obtain ⟨u, hfind⟩ := find?_arrange ho target
    cases hold : s.find? target with
    | none =>
      rw [hold, Option.map_none] at hfind
      simp only [hfind, hold]
    | some t =>
      rw [hold, Option.map_some] at hfind
      simp only [hfind, hold, columnFate_arranged]

/-- A table that a log renames is never told as dropped under its old name: the text of a dropped
column is longer than the name of its table. -/
theorem tableFate_eq_dropped_iff (s : Schema) (key : ForeignKey) : s.tableFate key.table = .dropped ↔
    (s.outcome key).table = key.table ∧ (s.outcome key).fault = some (.dropped key.table) := by
  constructor
  · intro hfate
    simp only [outcome, hfate, and_self]
  · rintro ⟨htable, hfault⟩
    cases hfate : s.tableFate key.table with
    | dropped => rfl
    | name target =>
      cases hfind : s.find? target with
      | none => simp [outcome, hfate, hfind] at hfault
      | some t =>
        cases hcolumn : t.columnFate key.column with
        | name column => simp [outcome, hfate, hfind, hcolumn] at hfault
        | dropped =>
          simp only [outcome, hfate, hfind, hcolumn] at htable hfault
          have htext : target ++ "." ++ key.column = target := by simpa [htable] using hfault
          have hlength := congrArg String.length htext
          rw [String.length_append, String.length_append] at hlength
          exact absurd hlength (by have hdot : ".".length = 1 := rfl; omega)

theorem tableFate_name {target : String} (h : s.tableFate key.table = .name target) :
    (s.outcome key).table = target := by
  simp only [outcome, h]
  split
  · rfl
  · split <;> rfl

/-- **What becomes of a key after an arrangement** is what became of it before exactly if its table
has the fate that it had. -/
theorem outcome_arrange_iff (ho : s.tables.Ordered) (key : ForeignKey) :
    s.arrange.2.outcome key = s.outcome key ↔
      s.arrange.2.tableFate key.table = s.tableFate key.table := by
  refine ⟨fun h => ?_, outcome_of_fate ho⟩
  have hdropped := (s.arrange.2.tableFate_eq_dropped_iff key).trans
    (h ▸ (s.tableFate_eq_dropped_iff key).symm)
  cases hold : s.tableFate key.table with
  | dropped => exact hdropped.mpr hold
  | name target =>
    cases hnew : s.arrange.2.tableFate key.table with
    | dropped => exact absurd (hold.symm.trans (hdropped.mp hnew)) (by simp)
    | name target' => rw [← tableFate_name hold, ← tableFate_name hnew, h]

/-- Live tables are no part of a history. -/
theorem tableFate_of_live (h : ∀ t ∈ s.tables.values, Entry.isLive t = true) (name : String) :
    s.tableFate name = .name name := by
  have hedges : RenameGraph.edges (s.tables.values.drop s.offset) = [] := by
    refine List.filterMap_eq_nil_iff.mpr fun t ht => ?_
    have hold : Entry.oldName t = none := by
      have hlive := h t (List.mem_of_mem_drop ht)
      simpa [Entry.isLive, Entry.isPlaceholder] using hlive
    rw [RenameGraph.edge?, hold]
  rw [tableFate, hedges]
  exact RenameGraph.greedyEnd_of_none rfl

/-! ### All keys -/

/-- The tables are the same ones, as the arrangement leaves them. -/
theorem exists_arranged_of_mem (ht : t ∈ s.arrange.2.tables.values) :
    ∃ u, ∃ t₀ ∈ s.tables.values, t = s.arranged u t₀ := by
  obtain ⟨u, hu⟩ := List.getElem?_of_mem ht
  rw [Entries.getElem?_values, get?_arrange] at hu
  obtain ⟨t₀, ht₀, rfl⟩ := Option.map_eq_some_iff.mp hu
  rw [← Entries.getElem?_values] at ht₀
  exact ⟨u, t₀, s.byName_perm.mem_iff.mp (List.mem_of_getElem? ht₀), rfl⟩

theorem live_arrange (h : ∀ t ∈ s.tables.values, Entry.isLive t = true) :
    ∀ t ∈ s.arrange.2.tables.values, Entry.isLive t = true := by
  intro t ht
  obtain ⟨u, t₀, ht₀, rfl⟩ := exists_arranged_of_mem ht
  rw [isLive_arranged]
  exact h t₀ ht₀

/-- What does not depend on the ranking is told of the same live tables, in another order. -/
theorem live_arrange_perm {β : Type} {f g : Table → β}
    (h : ∀ t ∈ s.tables.values, Entry.isLive t = true → ∀ u, f (s.arranged u t) = g t) :
    ((s.arrange.2.tables.values.filter Entry.isLive).map f).Perm
      ((s.tables.values.filter Entry.isLive).map g) := by
  have hmap : (s.arrange.2.tables.values.filter Entry.isLive).map f =
      (s.byName.values.filter Entry.isLive).map g := by
    rw [← map_fst_liveTables, ← map_fst_liveTables, liveTables_arrange, List.map_map, List.map_map, List.map_map]
    refine List.map_congr_left fun entry hentry => ?_
    obtain ⟨hget, hlive⟩ := mem_liveTables.mp hentry
    rw [← Entries.getElem?_values] at hget
    exact h entry.1 (s.byName_perm.mem_iff.mp (List.mem_of_getElem? hget)) hlive entry.2
  rw [hmap]
  exact (s.byName_perm.filter _).map g

/-- What a trace reports of the keys of a table. -/
def reports (s : Schema) (t : Table) : List Fault := (keysOf t).filterMap fun key => (s.outcome key).fault

/-- The refusals of a table that cannot be rewritten. -/
def refused (s : Schema) (t : Table) : List Fault :=
  if t.isStatic then ((sitesOf 0 t).filterMap s.asked?).map fun _ => .staticData (Entry.displayName t) else []

/-- The tables of a list refuse one after the other, wherever they stand. -/
theorem refusals_eq (s : Schema) (tables : List Table) (i : Nat) :
    s.refusals (tables.zipIdx i) = (tables.filter Entry.isLive).flatMap s.refused := by
  induction tables generalizing i with
  | nil => rfl
  | cons t rest ih =>
    have hasked : (sitesOf i t).filterMap s.asked? =
        ((sitesOf 0 t).filterMap s.asked?).map fun r => { r with table := i } := by
      rw [sitesOf_eq, List.filterMap_map, List.map_filterMap]
      exact List.filterMap_congr fun site _ => s.uniform_asked? site i
    have hcons : s.refusals ((t, i) :: rest.zipIdx (i + 1)) =
        (if Entry.isLive t then s.refused t else []) ++ s.refusals (rest.zipIdx (i + 1)) := by
      cases hlive : Entry.isLive t <;> cases hstatic : t.isStatic <;>
        simp [refusals, refused, hlive, hstatic, hasked]
    rw [List.zipIdx_cons, hcons, ih, List.filter_cons]
    split <;> rfl

/-- **A trace, table by table.** -/
theorem traceForeignWith_tables (hmarks : ∀ t ∈ s.tables.values, t.entries.Ordered) {p : NodePool Fate}
    (hp : p.Valid) (capacity : UInt64) :
    (s.traceForeignWith p capacity).1.tables.values = s.tables.values.map s.traced ∧
      (s.traceForeignWith p capacity).2.1 = (s.tables.values.filter Entry.isLive).flatMap s.reports ++
        (s.tables.values.filter Entry.isLive).flatMap s.refused := by
  obtain ⟨htables, hfaults⟩ := s.traceForeignWith_eq hp capacity
  have hreports : ((sites s.tables.values.zipIdx).filterMap fun site => (s.outcome site.key).fault) =
      (s.tables.values.filter Entry.isLive).flatMap s.reports := by
    have hkeys := congrArg (List.filterMap fun key => (s.outcome key).fault) (map_key_sites s.tables.values 0)
    rwa [List.filterMap_map, List.filterMap_flatMap] at hkeys
  rw [hreports, s.refusals_asked s hmarks, refusals_eq] at hfaults
  exact ⟨(congrArg (fun s : Schema => s.tables.values) htables).trans (s.values_asked s), hfaults⟩

theorem traceForeign_tables (hmarks : ∀ t ∈ s.tables.values, t.entries.Ordered) :
    s.traceForeign.1.tables.values = s.tables.values.map s.traced ∧
      s.traceForeign.2 = (s.tables.values.filter Entry.isLive).flatMap s.reports ++
        (s.tables.values.filter Entry.isLive).flatMap s.refused :=
  traceForeignWith_tables hmarks (NodePool.valid_ofChunkSize NodePool.defaultChunkSize) RenameGraph.defaultCapacity

/-- Rewrites see nothing of a table but its columns. -/
theorem columns_retarget {t' : Table} (h : t'.columns = t.columns) (rs : List Rewrite) :
    (rs.foldl retarget t').columns = (rs.foldl retarget t).columns := by
  induction rs generalizing t t' with
  | nil => exact h
  | cons r rest ih =>
    refine ih ?_
    unfold retarget
    rw [h]
    cases hcolumns : t.columns with
    | shared columns => exact h
    | owned columns =>
      dsimp only
      split
      · exact h
      · rfl

/-- Where the keys of a table have the outcomes that they had, a trace does the same to it. -/
theorem traced_arranged (s : Schema) (hlive : Entry.isLive t = true)
    (h : ∀ key ∈ keysOf t, s.arrange.2.outcome key = s.outcome key) (u : Nat) :
    s.arrange.2.reports (s.arranged u t) = s.reports t ∧ s.arrange.2.refused (s.arranged u t) = s.refused t ∧
      (s.arrange.2.traced (s.arranged u t)).columns = (s.traced t).columns := by
  have hasked : (sitesOf 0 t).filterMap s.arrange.2.asked? = (sitesOf 0 t).filterMap s.asked? := by
    refine List.filterMap_congr fun site hsite => ?_
    have hkey : site.key ∈ keysOf t := map_key_sitesOf 0 t ▸ List.mem_map_of_mem hsite
    rw [asked?, asked?, h site.key hkey]
  rw [arranged_of_live hlive]
  refine ⟨List.filterMap_congr fun key hkey => congrArg Outcome.fault (h key hkey), ?_, ?_⟩
  · show (if t.isStatic then ((sitesOf 0 t).filterMap s.arrange.2.asked?).map _ else []) = _
    rw [hasked]
    rfl
  · have hlive' : Entry.isLive (ranked (s.markAt u) t) = true := hlive
    have hcolumns : (ranked (s.markAt u) t).columns = t.columns := rfl
    rw [traced, traced, if_pos hlive, if_pos hlive', reworded, reworded, ← hasked]
    exact columns_retarget hcolumns _

theorem live_traced (s : Schema) (tables : List Table) :
    (tables.map s.traced).filter Entry.isLive = (tables.filter Entry.isLive).map s.traced := by
  have hlive : Entry.isLive ∘ s.traced = Entry.isLive := funext fun t => congrArg Prod.snd (s.entry_traced t)
  rw [List.filter_map, hlive]

/-- **A trace after an arrangement.** A key has the outcome that it had exactly if its table has the
fate that it had. Where that holds of every key, the faults are the same ones and every live table
is left with the same columns. It holds wherever no drop and no rename is pending. -/
theorem traceForeign_arrange (ho : s.tables.Ordered) (hmarks : ∀ t ∈ s.tables.values, t.entries.Ordered) :
    (∀ key, s.arrange.2.outcome key = s.outcome key ↔
        s.arrange.2.tableFate key.table = s.tableFate key.table) ∧
      ((∀ t ∈ s.tables.values, Entry.isLive t = true → ∀ key ∈ keysOf t,
          s.arrange.2.tableFate key.table = s.tableFate key.table) →
        s.arrange.2.traceForeign.2.Perm s.traceForeign.2 ∧
          ((s.arrange.2.traceForeign.1.tables.values.filter Entry.isLive).map fun t => (t.name, t.columns)).Perm
            ((s.traceForeign.1.tables.values.filter Entry.isLive).map fun t => (t.name, t.columns))) ∧
      ((∀ t ∈ s.tables.values, Entry.isLive t = true) →
        s.arrange.2.tableFate = s.tableFate) := by
  have hmarks' : ∀ t ∈ s.arrange.2.tables.values, t.entries.Ordered := by
    intro t ht
    obtain ⟨u, t₀, ht₀, rfl⟩ := exists_arranged_of_mem ht
    rw [entries_arranged]
    exact hmarks t₀ ht₀
  refine ⟨outcome_arrange_iff ho, fun hfates => ?_, fun hlive => ?_⟩
  · have htraced : ∀ t ∈ s.tables.values, Entry.isLive t = true → ∀ u, _ := fun t ht hlive =>
      s.traced_arranged hlive fun key hkey => outcome_of_fate ho (hfates t ht hlive key hkey)
    obtain ⟨htables, hfaults⟩ := traceForeign_tables hmarks
    obtain ⟨htables', hfaults'⟩ := traceForeign_tables hmarks'
    rw [hfaults, hfaults', htables, htables']
    constructor
    · have hreports := live_arrange_perm fun t ht hlive u => (htraced t ht hlive u).1
      have hrefused := live_arrange_perm fun t ht hlive u => (htraced t ht hlive u).2.1
      exact hreports.flatten.append hrefused.flatten
    · rw [live_traced, live_traced, List.map_map, List.map_map]
      refine live_arrange_perm fun t ht hlive u => ?_
      have hname : (s.arrange.2.traced (s.arranged u t)).name = (s.traced t).name :=
        (congrArg Prod.fst (entry_traced _ _)).trans
          ((name_arranged s u t).trans (congrArg Prod.fst (s.entry_traced t)).symm)
      exact Prod.ext hname (htraced t ht hlive u).2.2
  · funext name
    rw [tableFate_of_live hlive, tableFate_of_live (live_arrange hlive)]

/-- Posts with a key to users, which got another name since the last commit. -/
def renamedUsers (new : String) : Schema :=
  let toUsers := (Column.plain "user_id" .int).reference "users" "id"
  { name := "app", version := 2, offset := 2
    tables := { slots := [
      .owned (.plain new),
      .owned { name := some "posts", offset := 1, columns := .owned { slots := [.owned toUsers] } },
      .owned (.renameOf "users" new)] } }

/-- Behind the other tables by name the rename stays pending, and a trace does what it did; in front
of them it counts as committed, and the key is left with the name of no table. -/
theorem traceForeign_arrange_users :
    ((renamedUsers "writers").arrange.2.traceForeign.2.Perm (renamedUsers "writers").traceForeign.2 ∧
      (((renamedUsers "writers").arrange.2.traceForeign.1.tables.values.filter Entry.isLive).map fun t =>
          (t.name, t.columns)).Perm
        (((renamedUsers "writers").traceForeign.1.tables.values.filter Entry.isLive).map fun t =>
          (t.name, t.columns))) ∧
      (renamedUsers "accounts").arrange.2.outcome ⟨"users", "id", none, none⟩ ≠
        (renamedUsers "accounts").outcome ⟨"users", "id", none, none⟩ ∧
      (renamedUsers "accounts").traceForeign.2.map Fault.message = [] ∧
      (renamedUsers "accounts").arrange.2.traceForeign.2.map Fault.message =
        [Fault.message (.entryNotFound "users")] := by
  have hmarks : ∀ new, ∀ t ∈ (renamedUsers new).tables.values, t.entries.Ordered := by
    intro new
    rw [renamedUsers, Entries.values]
    exact List.forall_mem_cons.mpr ⟨Entries.ordered_of_unsorted rfl, List.forall_mem_cons.mpr
      ⟨Entries.ordered_of_unsorted rfl, List.forall_mem_singleton.mpr (Entries.ordered_of_unsorted rfl)⟩⟩
  have hwriters := traceForeign_arrange (Entries.ordered_of_unsorted rfl) (hmarks "writers")
  have haccounts := traceForeign_arrange (Entries.ordered_of_unsorted rfl) (hmarks "accounts")
  refine ⟨hwriters.2.1 (by decide +kernel), fun hsame => ?_, by decide +kernel, by decide +kernel⟩
  exact absurd ((haccounts.1 _).mp hsame) (by decide +kernel)

end Schema
end SchemaShift

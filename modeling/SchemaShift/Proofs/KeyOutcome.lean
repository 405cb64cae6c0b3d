import SchemaShift.Schema.ForeignTrace
import SchemaShift.Proofs.RenameTrail

/-! What becomes of every foreign key.

Every key is resolved on its own, whatever histories were built for the keys in
front of it: the table and the column that it names afterwards, and the fault to
report of it (`Schema.outcome`), follow from the logs and from the names in the
schema. A trace asks for the rewrites and reports the faults of all keys in order
(`Schema.resolve_spec`). -/
namespace SchemaShift
namespace RenameGraph

variable {g g' : RenameGraph} {p : NodePool Fate} {tagged : List (NodeId × Fate × Fate)}
  {log : List (Fate × Fate)}

/-- The graph holds the edges of a log. -/
def Records (g : RenameGraph) (p : NodePool Fate) (log : List (Fate × Fate)) : Prop :=
  ∃ tagged, Holds g p tagged ∧ tagged.map Prod.snd = log

/-- Handing out a node disturbs no graph. -/
theorem Holds.alloc (h : Holds g p tagged) (target : Fate) (next : Option NodeId) :
    Holds g (p.alloc target next).2 tagged := by
  obtain ⟨ha, hvalid⟩ := NodePool.alloc_spec h.pool target next
  exact ⟨h.ordered, hvalid, h.nodup, fun source => (h.chains source).alloc ha⟩

/-- Neither does building another one. -/
theorem Holds.addEdges_other (h : Holds g p tagged) (g' : RenameGraph) (edges : List (Fate × Fate)) :
    Holds g (g'.addEdges p edges).2 tagged := by
  induction edges generalizing g' p with
  | nil => exact h
  | cons edge rest ih => exact ih (h.alloc edge.2 _) _

theorem Records.pool (h : Records g p log) : p.Valid :=
  let ⟨_, hholds, _⟩ := h
  hholds.pool

theorem Records.addEdges_other (h : Records g p log) (g' : RenameGraph) (edges : List (Fate × Fate)) :
    Records g (g'.addEdges p edges).2 log :=
  let ⟨tagged, hholds, hedges⟩ := h
  ⟨tagged, hholds.addEdges_other g' edges, hedges⟩

theorem records_ofEntries {ε : Type} [Entry ε] (es : Entries ε) (offset : Nat) (h : p.Valid) (capacity : UInt64) :
    Records (ofEntries es offset p capacity).1 (ofEntries es offset p capacity).2
      (edges (es.values.drop offset)) := by
  obtain ⟨tagged, hholds, hedges⟩ := (holds_empty h).addEdges (edges (es.values.drop offset))
  exact ⟨tagged, hholds, hedges⟩

/-- A name without a history stays, any other one ends where the log leads. -/
theorem Records.trace? (h : Records g p log) (name : String) :
    (g.trace? p name).getD (.name name) = greedyEnd log (.name name) := by
  obtain ⟨tagged, hholds, rfl⟩ := h
  rw [hholds.trace?]
  cases hfind : (tagged.map Prod.snd).find? fun edge => edge.1 = .name name with
  | none => exact (greedyEnd_of_none hfind).symm
  | some edge => rfl

end RenameGraph

/-- What a column name became under the pending column log. -/
def Table.columnFate (t : Table) (name : String) : Fate :=
  RenameGraph.greedyEnd (RenameGraph.edges (t.entries.values.drop t.offset)) (.name name)

namespace Schema

open RenameGraph (Records)

/-- What a table name became under the pending table log. -/
def tableFate (s : Schema) (name : String) : Fate :=
  RenameGraph.greedyEnd (RenameGraph.edges (s.tables.values.drop s.offset)) (.name name)

/-- What a key is to name, and what is to be reported of it. -/
structure Outcome where
  table : String
  column : String
  fault : Option Fault := none

/-- What becomes of a key. A table that is gone or cannot be found leaves the column alone. -/
def outcome (s : Schema) (key : ForeignKey) : Outcome :=
  match s.tableFate key.table with
  | .dropped => ⟨key.table, key.column, some (.dropped key.table)⟩
  | .name target =>
    match s.find? target with
    | none => ⟨target, key.column, some (.entryNotFound target)⟩
    | some t =>
      match t.columnFate key.column with
      | .dropped => ⟨target, key.column, some (.dropped (target ++ "." ++ key.column))⟩
      | .name column => ⟨target, column, none⟩

/-! ### The keys to resolve -/

/-- A foreign key and where it stands. -/
structure Site where
  table : Nat
  column : String
  key : ForeignKey

/-- The named foreign key of a column of the table at `i`. -/
def siteOf? (i : Nat) (c : Column) : Option Site :=
  c.name.bind fun column => c.foreign.map fun key => ⟨i, column, key⟩

/-- The named foreign keys of the table at `i`. -/
def sitesOf (i : Nat) (t : Table) : List Site := t.foreignColumns.filterMap (siteOf? i)

/-- The foreign keys of live tables. -/
def sites (entries : List (Table × Nat)) : List Site :=
  (entries.filter fun entry => Entry.isLive entry.1).flatMap fun entry => sitesOf entry.2 entry.1

/-- The rewrite that gives a key its names, unless it has them. -/
def renaming? (site : Site) (table column : String) : Option Rewrite :=
  let r : Rewrite :=
    ⟨site.table, site.column, newName? site.key.table table, newName? site.key.column column⟩
  if r.isNeeded then some r else none

/-- A rewrite is asked for the place of its key. -/
def InPlace (ask : Site → Option Rewrite) : Prop :=
  ∀ site r, ask site = some r → r.table = site.table ∧ r.column = site.column

/-- The rewrite that the outcome of a key asks for. -/
def asked? (s : Schema) (site : Site) : Option Rewrite :=
  renaming? site (s.outcome site.key).table (s.outcome site.key).column

/-- What is known after the keys in `seen`. -/
structure Reads (s : Schema) (g : RenameGraph) (st : Tracing) (seen : List Site) : Prop where
  tables : Records g st.pool (RenameGraph.edges (s.tables.values.drop s.offset))
  histories : ∀ name g' t, st.histories.lookup name = some g' → s.find? name = some t →
    Records g' st.pool (RenameGraph.edges (t.entries.values.drop t.offset))
  rewrites : st.rewrites = seen.filterMap s.asked?
  faults : st.faults = seen.filterMap fun site => (s.outcome site.key).fault

variable {s : Schema} {g : RenameGraph} {st : Tracing} {seen : List Site}

theorem newName?_self (name : String) : newName? name name = none := if_pos rfl

theorem renaming?_self (site : Site) : renaming? site site.key.table site.key.column = none := by
  simp [renaming?, newName?_self, Rewrite.isNeeded]

theorem inPlace_asked? (s : Schema) : InPlace s.asked? := by
  intro site r hr
  rw [asked?, renaming?] at hr
  split at hr
  · obtain rfl := Option.some.inj hr
    exact ⟨rfl, rfl⟩
  · exact absurd hr (by simp)

/-- Rewrites of a list of columns are for columns in it. -/
theorem InPlace.of_mem {ask : Site → Option Rewrite} (h : InPlace ask) {i : Nat} {columns : List Column}
    {r : Rewrite} (hr : r ∈ (columns.filterMap (siteOf? i)).filterMap ask) :
    r.table = i ∧ ∃ c ∈ columns, c.name = some r.column := by
  obtain ⟨site, hsite, hask⟩ := List.mem_filterMap.mp hr
  obtain ⟨c, hc, hcsite⟩ := List.mem_filterMap.mp hsite
  obtain ⟨column, hname, hcolumn⟩ := Option.bind_eq_some_iff.mp hcsite
  obtain ⟨key, _, rfl⟩ := Option.map_eq_some_iff.mp hcolumn
  obtain ⟨htable, hcolumn⟩ := h _ _ hask
  exact ⟨htable, c, hc, hname.trans (congrArg some hcolumn.symm)⟩

theorem note_eq (st : Tracing) (r : Rewrite) :
    st.note r = { st with rewrites := st.rewrites ++ if r.isNeeded then [r] else [] } := by
  unfold Tracing.note
  split <;> simp

/-- Noting the rewrite and the fault of one more key. -/
theorem Reads.note (h : Reads s g st seen) {site : Site} {faults : List Fault} {r : Rewrite}
    (hr : s.asked? site = if r.isNeeded then some r else none)
    (hfaults : faults = st.faults ++ (s.outcome site.key).fault.toList) :
    Reads s g (({ st with faults } : Tracing).note r) (seen ++ [site]) := by
  rw [note_eq]
  refine ⟨h.tables, h.histories, ?_, ?_⟩
  · rw [h.rewrites, List.filterMap_append]
    by_cases hneeded : r.isNeeded = true <;> simp [hr, hneeded]
  · rw [hfaults, h.faults, List.filterMap_append]
    cases hfault : (s.outcome site.key).fault <;> simp [hfault]

/-- The history of a table, built now or for a key in front of this one. -/
theorem Reads.history (h : Reads s g st seen) {name : String} {t : Table} (hfind : s.find? name = some t) :
    Records (st.history name t).1 (st.history name t).2.pool
        (RenameGraph.edges (t.entries.values.drop t.offset)) ∧ Reads s g (st.history name t).2 seen := by
  unfold Tracing.history
  split
  · next g' hg' => exact ⟨h.histories name g' t hg' hfind, h⟩
  · next hnone =>
    have hbuilt := RenameGraph.records_ofEntries t.entries t.offset h.tables.pool st.capacity
    refine ⟨hbuilt, h.tables.addEdges_other _ _, fun other g' t' hlookup hfind' => ?_, h.rewrites, h.faults⟩
    rw [List.lookup_append] at hlookup
    cases hother : st.histories.lookup other with
    | some g'' =>
      rw [hother, Option.some_or] at hlookup
      obtain rfl := Option.some.inj hlookup
      exact (h.histories other g'' t' hother hfind').addEdges_other _ _
    | none =>
      rw [hother, Option.none_or, List.lookup_cons] at hlookup
      split at hlookup
      · next heq =>
        obtain rfl : other = name := by simpa using heq
        obtain rfl := Option.some.inj (hfind.symm.trans hfind')
        obtain rfl := Option.some.inj hlookup
        exact hbuilt
      · exact absurd hlookup (by simp)

/-- Resolving the column of a key whose table was found out. -/
theorem Reads.target (h : Reads s g st seen) {i : Nat} {column target : String} {key : ForeignKey}
    (hfate : s.tableFate key.table = .name target) :
    Reads s g (s.traceTarget st ⟨i, column, newName? key.table target, none⟩ target key.column)
      (seen ++ [⟨i, column, key⟩]) := by
  unfold traceTarget
  cases hfind : s.find? target with
  | none =>
    have houtcome : s.outcome key = ⟨target, key.column, some (.entryNotFound target)⟩ := by
      simp only [outcome, hfate, hfind]
    refine h.note ?_ (by rw [houtcome]; rfl)
    simp only [asked?, renaming?, houtcome, newName?_self]
  | some t =>
    obtain ⟨hrecords, hreads⟩ := h.history hfind
    have htrace := hrecords.trace? key.column
    have hcolumn : t.columnFate key.column = (((st.history target t).1.trace?
        (st.history target t).2.pool key.column).getD (.name key.column)) := htrace.symm
    simp only
    cases hresult : (st.history target t).1.trace? (st.history target t).2.pool key.column with
    | none =>
      rw [hresult, Option.getD_none] at hcolumn
      have houtcome : s.outcome key = ⟨target, key.column, none⟩ := by
        simp only [outcome, hfate, hfind, hcolumn]
      refine hreads.note ?_ (by rw [houtcome]; exact (List.append_nil _).symm)
      simp only [asked?, renaming?, houtcome, newName?_self]
    | some fate =>
      rw [hresult, Option.getD_some] at hcolumn
      cases fate with
      | name new =>
        have houtcome : s.outcome key = ⟨target, new, none⟩ := by
          simp only [outcome, hfate, hfind, hcolumn]
        refine hreads.note ?_ (by rw [houtcome]; exact (List.append_nil _).symm)
        simp only [asked?, renaming?, houtcome]
      | dropped =>
        have houtcome : s.outcome key =
            ⟨target, key.column, some (.dropped (target ++ "." ++ key.column))⟩ := by
          simp only [outcome, hfate, hfind, hcolumn]
        refine hreads.note ?_ (by rw [houtcome]; rfl)
        simp only [asked?, renaming?, houtcome, newName?_self]

/-- Resolving one key. -/
theorem Reads.key (h : Reads s g st seen) {c : Column} {i : Nat} {column : String} {key : ForeignKey}
    (hname : c.name = some column) (hkey : c.foreign = some key) :
    Reads s g (s.traceColumn g i st c) (seen ++ [⟨i, column, key⟩]) := by
  have hfate : s.tableFate key.table = (g.trace? st.pool key.table).getD (.name key.table) :=
    (h.tables.trace? key.table).symm
  simp only [traceColumn, hname, hkey]
  cases htrace : g.trace? st.pool key.table with
  | none =>
    rw [htrace, Option.getD_none] at hfate
    have hsame : Reads s g (s.traceTarget st ⟨i, column, newName? key.table key.table, none⟩ key.table key.column)
        (seen ++ [⟨i, column, key⟩]) := h.target hfate
    rwa [newName?_self] at hsame
  | some fate =>
    rw [htrace, Option.getD_some] at hfate
    cases fate with
    | name new => exact h.target hfate
    | dropped =>
      have houtcome : s.outcome key = ⟨key.table, key.column, some (.dropped key.table)⟩ := by
        simp only [outcome, hfate]
      have hasked : s.asked? ⟨i, column, key⟩ = none := by
        rw [asked?, houtcome]
        exact renaming?_self _
      refine ⟨h.tables, h.histories, ?_, ?_⟩
      · simp [Tracing.fail, h.rewrites, hasked]
      · simp [Tracing.fail, h.faults, houtcome]

theorem Reads.column (h : Reads s g st seen) (i : Nat) (c : Column) :
    Reads s g (s.traceColumn g i st c) (seen ++ (siteOf? i c).toList) := by
  cases hname : c.name with
  | none => simpa [traceColumn, siteOf?, hname] using h
  | some column =>
    cases hkey : c.foreign with
    | none => simpa [traceColumn, siteOf?, hname, hkey] using h
    | some key => simpa [siteOf?, hname, hkey] using h.key hname hkey

theorem Reads.columns (h : Reads s g st seen) (i : Nat) (columns : List Column) :
    Reads s g (columns.foldl (s.traceColumn g i) st) (seen ++ columns.filterMap (siteOf? i)) := by
  induction columns generalizing st seen with
  | nil => simpa using h
  | cons c rest ih =>
    have hrest := ih (h.column i c)
    rw [List.filterMap_cons]
    cases hsite : siteOf? i c <;> simpa [hsite] using hrest

/-- Resolving the keys of every live table. -/
theorem Reads.run (h : Reads s g st seen) (entries : List (Table × Nat)) :
    Reads s g (entries.foldl (s.traceTable g) st) (seen ++ sites entries) := by
  induction entries generalizing st seen with
  | nil => simpa [sites] using h
  | cons entry rest ih =>
    rw [List.foldl_cons, traceTable]
    split
    · next hlive =>
      have hsplit : sites (entry :: rest) = sitesOf entry.2 entry.1 ++ sites rest := by
        simp [sites, hlive]
      rw [hsplit, ← List.append_assoc]
      exact ih (h.columns entry.2 entry.1.foreignColumns)
    · next hlive =>
      have hskip : sites (entry :: rest) = sites rest := by simp [sites, hlive]
      rw [hskip]
      exact ih h

/-- **What resolving finds out**: every key on its own, in order. -/
theorem resolve_spec (s : Schema) {p : NodePool Fate} (hp : p.Valid) (capacity : UInt64) :
    (s.resolve p capacity).1 = (sites s.tables.values.zipIdx).filterMap s.asked? ∧
      (s.resolve p capacity).2.1 =
        (sites s.tables.values.zipIdx).filterMap fun site => (s.outcome site.key).fault := by
  have hstart : Reads s (RenameGraph.ofEntries s.tables s.offset p capacity).1
      { pool := (RenameGraph.ofEntries s.tables s.offset p capacity).2, capacity } [] :=
    ⟨RenameGraph.records_ofEntries _ _ hp capacity, fun _ _ _ hlookup => absurd hlookup (by simp), rfl, rfl⟩
  have hreads := hstart.run s.tables.values.zipIdx
  exact ⟨hreads.rewrites, hreads.faults⟩

end Schema
end SchemaShift

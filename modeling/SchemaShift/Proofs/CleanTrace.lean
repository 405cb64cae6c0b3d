import SchemaShift.Proofs.BorrowedPool
import SchemaShift.Proofs.ForeignNames
import SchemaShift.Proofs.TrailWalk

/-! A trace leaves the pool clean.

Following foreign keys takes up nodes of a pool for the history of the tables and
for that of the columns of every table that is asked for (`Schema.Tracing.Owes`),
and gives back all of them in the end, whatever could not be followed. So the pool
holds what it held before, and that of a session is empty between its calls
(`Session.trace_clean`). -/
namespace SchemaShift

open LinkGraph (Borrowed clearAll)

namespace Schema

/-! ### Part way through a trace -/

/-- What the trace has taken out of the pool `base` are the nodes of its graphs. -/
def Tracing.Owes (base : NodePool Fate) (tables : RenameGraph) (st : Tracing) : Prop :=
  ∃ histories chain, histories.map Prod.fst = st.histories.map Prod.snd ∧
    Borrowed base st.pool (histories ++ [(tables, chain)])

namespace Tracing

variable {base : NodePool Fate} {tables : RenameGraph} {st : Tracing}

/-- Notes and faults take nothing. -/
theorem Owes.congr (h : st.Owes base tables) {st' : Tracing} (hpool : st'.pool = st.pool)
    (hhistories : st'.histories = st.histories) : st'.Owes base tables := by
  unfold Owes
  rw [hpool, hhistories]
  exact h

theorem Owes.fail (h : st.Owes base tables) (fault : Fault) : (st.fail fault).Owes base tables := h.congr rfl rfl

theorem Owes.note (h : st.Owes base tables) (r : Rewrite) : (st.note r).Owes base tables := by
  rw [note_eq]
  exact h.congr rfl rfl

/-- The history of a table is built once. -/
theorem Owes.history (h : st.Owes base tables) (name : String) (t : Table) : (st.history name t).2.Owes base tables := by
  unfold Tracing.history
  split
  · exact h
  · obtain ⟨histories, chain, hgraphs, hborrowed⟩ := h
    obtain ⟨chain', hnew⟩ := hborrowed.enter (RenameGraph.steps_ofEntries t.entries t.offset hborrowed.pool st.capacity)
    refine ⟨histories ++ [((RenameGraph.ofEntries t.entries t.offset st.pool st.capacity).1, chain')], chain, ?_, ?_⟩
    · rw [List.map_append, List.map_append, hgraphs]
      rfl
    · rw [List.append_assoc]
      exact hnew.perm List.perm_middle.symm

/-- **The nodes are given back** at the end of the trace. -/
theorem Owes.giveBack (h : st.Owes base tables) :
    (tables.clear st.release).2.Valid ∧ ∀ id, (tables.clear st.release).2.get? id = base.get? id := by
  obtain ⟨histories, chain, hgraphs, hborrowed⟩ := h
  have hall : (tables.clear st.release).2 = clearAll st.pool ((histories ++ [(tables, chain)]).map Prod.fst) := by
    rw [List.map_append, hgraphs, clearAll, List.foldl_append]
    show _ = (tables.clear (List.foldl _ _ (st.histories.map Prod.snd))).2
    rw [List.foldl_map]
    rfl
  rw [hall]
  exact hborrowed.leaveAll

end Tracing

open Tracing (Owes)

variable {base : NodePool Fate} {tables : RenameGraph} {st : Tracing}

theorem owes_traceTarget (s : Schema) (h : st.Owes base tables) (r : Rewrite) (target column : String) :
    (s.traceTarget st r target column).Owes base tables := by
  unfold traceTarget
  split
  · exact (h.fail _).note r
  · next t _ =>
    have hhistory := h.history target t
    dsimp only
    split
    · exact (hhistory.fail _).note r
    · exact hhistory.note _
    · exact hhistory.note r

theorem owes_traceColumn (s : Schema) (h : st.Owes base tables) (i : Nat) (c : Column) :
    (s.traceColumn tables i st c).Owes base tables := by
  unfold traceColumn
  split
  · split
    · exact h.fail _
    · exact s.owes_traceTarget h _ _ _
    · exact s.owes_traceTarget h _ _ _
  · exact h

theorem owes_traceTable (s : Schema) (h : st.Owes base tables) (entry : Table × Nat) :
    (s.traceTable tables st entry).Owes base tables := by
  unfold traceTable
  split
  · exact List.foldlRecOn _ _ h fun st hst c _ => s.owes_traceColumn hst entry.2 c
  · exact h

/-- **Resolving foreign keys** leaves in the pool what was there. -/
theorem pool_resolve (s : Schema) {p : NodePool Fate} (hp : p.Valid) (capacity : UInt64) :
    (s.resolve p capacity).2.2.Valid ∧ ∀ id, (s.resolve p capacity).2.2.get? id = p.get? id := by
  obtain ⟨chain, hborrowed⟩ :=
    (LinkGraph.borrowed_nil hp).enter (RenameGraph.steps_ofEntries s.tables s.offset hp capacity)
  have hstart : Owes p (RenameGraph.ofEntries s.tables s.offset p capacity).1
      { pool := (RenameGraph.ofEntries s.tables s.offset p capacity).2, capacity } := ⟨[], chain, rfl, hborrowed⟩
  have hrun := List.foldlRecOn s.tables.values.zipIdx _ hstart fun st hst entry _ => s.owes_traceTable hst entry
  exact hrun.giveBack

end Schema

/-! ### The pool of a session -/

namespace Session

open NodePool (Reached)

/-- A call on a session. -/
inductive Call where
  | delta (name : String)
  | apply (delta : Schema)
  | commit
  | arrange

/-- What a call makes of a session, whatever comes of it. -/
def call (s : Session) : Call → Session
  | .delta name => (s.delta name).2
  | .apply delta => (s.apply delta).2
  | .commit => s.commit
  | .arrange => s.arrange.2

/-- Makes calls one after the other. -/
def run (s : Session) (calls : List Call) : Session := calls.foldl call s

/-- No node of the pool is in use. -/
def PoolUnused (s : Session) : Prop := s.pool.Valid ∧ ∀ id, s.pool.get? id = none

theorem poolUnused_resume {schema : Schema} {versions : VersionCounter} {settings : Settings} {s : Session}
    (h : resume schema versions settings = .ok s) : s.PoolUnused := by
  unfold PoolUnused
  rw [(resume_ok h).2]
  exact ⟨NodePool.valid_ofChunkSize _, fun id => by simp [NodePool.ofChunkSize, NodePool.get?]⟩

/-- Only following foreign keys makes use of the pool. -/
theorem PoolUnused.call {s : Session} (h : s.PoolUnused) (c : Call) : (s.call c).PoolUnused := by
  cases c with
  | delta name => exact h
  | commit => exact h
  | arrange => exact h
  | apply delta =>
    show (s.apply delta).2.PoolUnused
    unfold apply
    split
    · exact h
    · next schema _ =>
      obtain ⟨hvalid, hsame⟩ := schema.pool_resolve h.1 s.settings.relation.capacity
      exact ⟨hvalid, fun id => (hsame id).trans (h.2 id)⟩

theorem PoolUnused.run {s : Session} (h : s.PoolUnused) (calls : List Call) : (s.run calls).PoolUnused :=
  List.foldlRecOn calls _ h fun _ hs c _ => hs.call c

theorem PoolUnused.isEmpty {s : Session} (h : s.PoolUnused) : s.pool.isEmpty = true := by
  have hsize : s.pool.size = 0 := NodePool.size_eq_of_get? (m := ∅) fun id => by rw [h.2]; simp
  rw [NodePool.isEmpty, hsize]
  rfl

/-- **A trace leaves nothing in the pool.** Whatever other graphs keep there, the same handles are in use
afterwards, for the same objects with the same links, also if keys could not be followed. So the pool of a
session is empty after every call. That is so whatever room the graphs make ahead. -/
theorem trace_clean {p : NodePool Fate} (hp : p.Reached) {schema : Schema} {versions : VersionCounter}
    {settings : Settings} {session : Session} (hsession : resume schema versions settings = .ok session) :
    (∀ (s : Schema) (capacity : UInt64), (∀ id, (s.traceForeignWith p capacity).2.2.get? id = p.get? id) ∧
      (s.traceForeignWith p capacity).2.2.size = p.size) ∧
    ∀ calls, (session.run calls).pool.isEmpty = true := by
  refine ⟨fun s capacity => ?_, fun calls => ((poolUnused_resume hsession).run calls).isEmpty⟩
  obtain ⟨m, _, hholds⟩ := hp.holds
  have hsame : ∀ id, (s.traceForeignWith p capacity).2.2.get? id = p.get? id :=
    (s.pool_resolve hp.valid capacity).2
  refine ⟨hsame, ?_⟩
  rw [hholds.size]
  exact NodePool.size_eq_of_get? fun id => (hsame id).trans (hholds.get? id)

/-- Two other histories; one of them has given a node back. -/
def shelved : Shelf Nat Fate := (Shelf.start 2).run
  [(0, .add (.name "a") (some (.name "b")) true), (1, .add (.name "x") (some .dropped) true),
    (0, .add (.name "b") (some .dropped) true), (0, .erase (.name "a") none .keep)]

/-- Posts name their author by the old names of the table and of its column, and name a table that goes. -/
def moving : Schema :=
  let author := (Column.plain "author" .int64).reference "people" "id"
  let place := (Column.plain "place" .int64).reference "places" "id"
  let users : Table := { Table.plain "users" with
    columns := .owned { slots := [.owned (.plain "key" .int64), .owned (.renameOf "id" "key")] }, offset := 1 }
  let posts : Table := { Table.plain "posts" with columns := .owned { slots := [.owned place, .owned author] } }
  { name := "app", version := 2, offset := 2, tables := { slots :=
    [.owned posts, .owned users, .owned (.renameOf "people" "users"), .owned (.dropOf "places")] } }

theorem trace_clean_shelved :
    shelved.pool.Reached ∧ resume { name := "app", version := 0 } ⟨1⟩ {} = .ok blank ∧
      (moving.traceForeignWith shelved.pool 1).2.1.length = 1 ∧
      shelved.pool.nodes = [none, some ⟨.dropped, none⟩, some ⟨.dropped, none⟩] ∧
      (∀ id, (moving.traceForeignWith shelved.pool 1).2.2.get? id = shelved.pool.get? id) ∧
      (moving.traceForeignWith shelved.pool 1).2.2.size = 2 ∧
      (blank.run [.apply moving, .commit, .apply moving]).pool.isEmpty = true := by
  have hp : shelved.pool.Reached := Shelf.reached_run 2 _
  have hstart : resume { name := "app", version := 0 } ⟨1⟩ {} = .ok blank := rfl
  obtain ⟨htrace, hrun⟩ := trace_clean hp hstart
  obtain ⟨hsame, hsize⟩ := htrace moving 1
  exact ⟨hp, hstart, by decide +kernel, by decide +kernel, hsame, hsize.trans (by decide +kernel), hrun _⟩

end Session
end SchemaShift

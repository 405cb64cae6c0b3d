import SchemaShift.Proofs.KeyOutcome
import SchemaShift.Proofs.TableLog

/-! Histories of fresh names.

The placeholders of a log, of tables or of columns, are drops and renames of names
(`NameChange.recorded?`). If every rename brings a name that no placeholder in front
of it has taken away (`NameChange.Fresh`), nothing comes to a name that something
else has left, and a trace of the history finds for every name what the replay of
the log finds (`RenameGraph.trace_eq_replay`). -/
namespace SchemaShift
namespace NameChange

variable {ε : Type} [Entry ε]

/-- The drop or the rename that an entry of a log stands for. An entry with both names
that carries the change flag stands for none. -/
def recorded? (e : ε) : Option NameChange :=
  match Entry.change? e, Entry.oldName e, Entry.name e with
  | some .drop, some old, _ => some (drop old)
  | some .rename, some old, some new => some (rename old new)
  | _, _, _ => none

/-- The drops and renames among the entries from `offset` on. -/
def pending (es : Entries ε) (offset : Nat) : List NameChange :=
  (es.values.drop offset).filterMap recorded?

/-- No rename brings a name that an earlier change has taken away. -/
def Fresh (log : List NameChange) : Prop :=
  log.Pairwise fun earlier later => later.new? ≠ some earlier.old

instance (log : List NameChange) : Decidable (Fresh log) :=
  inferInstanceAs (Decidable (log.Pairwise fun earlier later => later.new? ≠ some earlier.old))

theorem edge?_eq (e : ε) : RenameGraph.edge? e = (recorded? e).map edge := by
  unfold RenameGraph.edge? recorded?
  cases Entry.oldName e with
  | none => cases Entry.change? e with
    | none => rfl
    | some change => cases change <;> rfl
  | some old => cases Entry.change? e with
    | none => rfl
    | some change =>
      cases change with
      | rename => cases Entry.name e <;> rfl
      | drop => rfl
      | add => rfl
      | alter => rfl

/-- The history of a log has one edge for each drop and rename, in order. -/
theorem edges_eq (es : Entries ε) (offset : Nat) :
    RenameGraph.edges (es.values.drop offset) = (pending es offset).map edge := by
  rw [RenameGraph.edges, pending, List.map_filterMap]
  congr 1
  funext e
  exact edge?_eq e

/-- In a log of fresh names nothing takes a name that something else has left. -/
theorem Fresh.undisturbed {log : List NameChange} (h : Fresh log) {left : List String}
    (hleft : ∀ change ∈ log, ∀ new ∈ change.new?, new ∉ left) (name : String) :
    Undisturbed left name log := by
  induction log generalizing left name with
  | nil => trivial
  | cons change rest ih =>
    obtain ⟨hfirst, hrest⟩ := List.pairwise_cons.mp h
    have hlater : ∀ later ∈ rest, ∀ new ∈ later.new?, new ∉ left := fun later hmem =>
      hleft later (List.mem_cons_of_mem change hmem)
    rw [Undisturbed]
    split
    · exact fun new hnew => ⟨hleft change List.mem_cons_self new hnew, ih hrest hlater new⟩
    · refine ih hrest (fun later hmem new hnew hin => ?_) name
      rcases List.mem_cons.mp hin with rfl | hin
      · exact hfirst later hmem hnew
      · exact hlater later hmem new hnew hin

/-- A name that no change takes away has no edge. -/
theorem find?_edge_eq_none {log : List NameChange} {name : String} :
    (log.map edge).find? (fun edge => edge.1 = .name name) = none ↔ name ∉ log.map old := by
  rw [List.find?_eq_none, List.forall_mem_map, List.mem_map]
  constructor
  · rintro h ⟨change, hmem, rfl⟩
    exact h change hmem (decide_eq_true rfl)
  · intro h change hmem heq
    exact h ⟨change, hmem, Fate.name.inj (of_decide_eq_true heq)⟩

end NameChange

namespace RenameGraph

open NameChange

/-- **A trace of fresh names finds what the replay finds**, in any pool and from any entry on: nothing
for a name that no drop or rename takes away, and otherwise where the replay from left to right ends. -/
theorem trace_eq_replay {ε : Type} [Entry ε] (es : Entries ε) (offset : Nat) {p : NodePool Fate} (hp : p.Valid)
    (capacity : UInt64) (hfresh : Fresh (pending es offset)) (name : String) :
    (ofEntries es offset p capacity).1.trace? (ofEntries es offset p capacity).2 name =
      if name ∈ (pending es offset).map old then some (replay (pending es offset) name) else none := by
  obtain ⟨tagged, hholds, hedges⟩ := records_ofEntries es offset hp capacity
  have hreplay : greedyEnd ((pending es offset).map edge) (.name name) = replay (pending es offset) name :=
    traced_of_undisturbed (hfresh.undisturbed (fun _ _ _ _ => List.not_mem_nil) name)
  rw [hholds.trace?, hedges, edges_eq, hreplay]
  split
  · next hmem =>
    obtain ⟨edge, hedge⟩ := Option.ne_none_iff_exists'.mp (mt find?_edge_eq_none.mp (not_not_intro hmem))
    rw [hedge, Option.map_some]
  · next hnot => rw [find?_edge_eq_none.mpr hnot, Option.map_none]

/-- Columns with a log from the second one on: `title` becomes `name`, a column that is called `title`
afterwards goes, and `name` becomes `label`. -/
def relabelled : Entries Column :=
  { slots := [.owned (.renameOf "id" "title"), .shared (.renameOf "title" "name"), .owned (.plain "title" .int),
      .owned (.dropOf "title"), .owned (.renameOf "name" "label")] }

theorem trace_eq_replay_relabelled : Fresh (pending relabelled 1) ∧
    (ofEntries relabelled 1 (.ofChunkSize 2) 0).1.trace? (ofEntries relabelled 1 (.ofChunkSize 2) 0).2 "title" =
      some (.name "label") := by
  have hfresh : Fresh (pending relabelled 1) := by decide
  refine ⟨hfresh, (trace_eq_replay relabelled 1 (NodePool.valid_ofChunkSize 2) 0 hfresh "title").trans ?_⟩
  decide

end RenameGraph
end SchemaShift

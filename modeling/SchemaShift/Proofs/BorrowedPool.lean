import SchemaShift.Proofs.SharedPool
import SchemaShift.Proofs.PoolCalls

/-! Borrowed nodes.

Graphs that are built in a pool with other nodes in use take up nodes that
nothing uses (`LinkGraph.Borrowed.enter`), and each of them gives back what it
took up (`LinkGraph.Borrowed.leave`). When all of them are cleared the pool holds
the nodes that it held before, whatever these are (`LinkGraph.Borrowed.leaveAll`).
What graphs do to a pool is making calls on it, so it holds of every pool that
graphs came to (`Shelf.reached_run`). -/
namespace SchemaShift

/-! ### Graphs that borrow -/

namespace LinkGraph

variable {α : Type} [DecidableEq α] [Ord α]

/-- The graphs have taken up nodes of the pool `base`, each of them its own ones, and nothing else has
happened to it. -/
structure Borrowed (base p : NodePool α) (held : List (LinkGraph α × (α → List (NodeId × α)))) : Prop where
  pool : p.Valid
  graphs : ∀ entry ∈ held, ∃ m, Refines entry.1 p entry.2 m
  apart : held.Pairwise fun a b => ∀ id, Owned a.2 id → ¬ Owned b.2 id
  frame : Frame base p (fun _ => False) fun id => ∃ entry ∈ held, Owned entry.2 id

variable {base p : NodePool α} {g : LinkGraph α} {chain : α → List (NodeId × α)}
  {held held' : List (LinkGraph α × (α → List (NodeId × α)))} {m : Multimap α}

theorem borrowed_nil (h : p.Valid) : Borrowed p p [] :=
  ⟨h, fun _ hmem => absurd hmem List.not_mem_nil, .nil, .of_same (fun _ => by simp) fun _ _ => rfl⟩

/-- In which order the graphs are listed does not matter. -/
theorem Borrowed.perm (h : Borrowed base p held) (hperm : held.Perm held') : Borrowed base p held' where
  pool := h.pool
  graphs entry hentry := h.graphs entry (hperm.mem_iff.mpr hentry)
  apart := hperm.pairwise h.apart fun hab id hb ha => hab id ha hb
  frame := by simpa only [hperm.mem_iff] using h.frame

/-- A graph without nodes borrows nothing. -/
theorem borrowed_cons_empty (hg : Refines g p chain m) (hempty : ∀ id, ¬ Owned chain id) :
    Borrowed base p ((g, chain) :: held) ↔ Borrowed base p held := by
  have howned : ∀ id, (∃ entry ∈ (g, chain) :: held, Owned entry.2 id) ↔ ∃ entry ∈ held, Owned entry.2 id := by
    intro id
    simp [hempty id]
  constructor
  · intro h
    refine ⟨h.pool, fun entry hentry => h.graphs entry (List.mem_cons_of_mem _ hentry), h.apart.of_cons, ?_⟩
    simpa only [howned] using h.frame
  · intro h
    refine ⟨h.pool, fun entry hentry => ?_, List.pairwise_cons.mpr ⟨fun _ _ id hid => absurd hid (hempty id), h.apart⟩, ?_⟩
    · rcases List.mem_cons.mp hentry with rfl | hentry
      · exact ⟨m, hg⟩
      · exact h.graphs entry hentry
    · simpa only [howned] using h.frame

/-- **One graph changes**, and the others keep their nodes. -/
theorem Borrowed.change (h : Borrowed base p ((g, chain) :: held)) {after : LinkGraph α × NodePool α}
    (hsteps : Steps (Owned chain) p after m) :
    ∃ chain', Refines after.1 after.2 chain' m ∧ Borrowed base after.2 ((after.1, chain') :: held) := by
  obtain ⟨chain', hafter, hframe⟩ := hsteps
  obtain ⟨hfirst, hrest⟩ := List.pairwise_cons.mp h.apart
  have hkept : ∀ entry ∈ held, (∃ m, Refines entry.1 after.2 entry.2 m) ∧
      ∀ id, Owned entry.2 id → ¬ Owned chain' id := by
    intro entry hentry
    obtain ⟨m', hm'⟩ := h.graphs entry (List.mem_cons_of_mem _ hentry)
    obtain ⟨hsame, hapart⟩ := hm'.beside hframe hafter.pool fun id hid hown => hfirst entry hentry id hown hid
    exact ⟨⟨m', hsame⟩, hapart⟩
  refine ⟨chain', hafter, hafter.pool, fun entry hentry => ?_, ?_, ?_⟩
  · rcases List.mem_cons.mp hentry with rfl | hentry
    · exact ⟨m, hafter⟩
    · exact (hkept entry hentry).1
  · exact List.pairwise_cons.mpr ⟨fun entry hentry id hid hown => (hkept entry hentry).2 id hown hid, hrest⟩
  · have hboth := h.frame
    simp only [List.mem_cons, exists_eq_or_imp] at hboth ⊢
    exact hboth.trans (hframe.beside _)

variable [Std.TransOrd α]

/-- **A new graph** takes up nodes. -/
theorem Borrowed.enter (h : Borrowed base p held) {after : LinkGraph α × NodePool α}
    (hsteps : Steps (Owned fun _ : α => []) p after m) : ∃ chain, Borrowed base after.2 ((after.1, chain) :: held) := by
  have hempty : Refines ({} : LinkGraph α) p (fun _ => []) ∅ := refines_empty h.pool
  have hnew := (borrowed_cons_empty hempty (hempty.not_owned rfl)).mpr h
  obtain ⟨chain, _, hafter⟩ := hnew.change hsteps
  exact ⟨chain, hafter⟩

variable [Std.LawfulEqOrd α]

/-- **A graph that is cleared** gives its nodes back. -/
theorem Borrowed.leave (h : Borrowed base p ((g, chain) :: held)) : Borrowed base (g.clear p).2 held := by
  obtain ⟨m, hm⟩ := h.graphs _ List.mem_cons_self
  obtain ⟨chain', hempty, hafter⟩ := h.change hm.clear
  exact (borrowed_cons_empty hempty (hempty.not_owned rfl)).mp hafter

/-- The pool once the graphs are cleared, one after the other. -/
def clearAll (p : NodePool α) (graphs : List (LinkGraph α)) : NodePool α :=
  graphs.foldl (fun p g => (g.clear p).2) p

/-- **When all graphs are cleared** the pool holds what it held before. -/
theorem Borrowed.leaveAll (h : Borrowed base p held) :
    (clearAll p (held.map Prod.fst)).Valid ∧ ∀ id, (clearAll p (held.map Prod.fst)).get? id = base.get? id := by
  induction held generalizing p with
  | nil =>
    refine ⟨h.pool, fun id => h.frame.untouched id not_false ?_⟩
    rintro ⟨_, hmem, _⟩
    exact absurd hmem List.not_mem_nil
  | cons entry rest ih => exact ih h.leave

end LinkGraph

/-! ### What graphs do to a pool is calls on it -/

namespace NodePool.Reached

variable {α : Type} {p : NodePool α} {g : LinkGraph α}

theorem alloc (h : p.Reached) (object : α) (next : Option NodeId) : (p.alloc object next).2.Reached :=
  h.call (.alloc object next)

theorem release (h : p.Reached) (id : NodeId) : (p.release id).2.Reached := h.call (.release id)

theorem modify (h : p.Reached) (id : NodeId) (f : Node α → Node α) : (p.modify id f).Reached := h.call (.modify id f)

/-- Calls for the elements of a list. -/
theorem foldl {σ β : Type} (pool : σ → NodePool α) {f : σ → β → σ}
    (hstep : ∀ s x, (pool s).Reached → (pool (f s x)).Reached) {s : σ} (h : (pool s).Reached) (xs : List β) :
    (pool (xs.foldl f s)).Reached := by
  induction xs generalizing s with
  | nil => exact h
  | cons x rest ih => exact ih (hstep s x h)

theorem releaseChain (h : p.Reached) (start : Option NodeId) : (p.releaseChain start).2.Reached := by
  unfold NodePool.releaseChain
  generalize p.nodes.length = limit
  induction limit generalizing p start with
  | zero => exact h
  | succ limit ih =>
    cases start with
    | none => exact h
    | some id =>
      unfold releaseUpTo
      cases p.get? id with
      | none => exact h
      | some node => exact ih (h.release id) node.next

theorem clear (h : p.Reached) : (g.clear p).2.Reached :=
  foldl id (fun _ (head : Node α) hs => releaseChain hs head.next) h g.heads

variable [DecidableEq α]

theorem unlinkEdge? (h : p.Reached) (a b : α) {after : LinkGraph α × NodePool α}
    (hafter : g.unlinkEdge? p a b = some after) : after.2.Reached := by
  obtain ⟨found, _, rfl⟩ := Option.map_eq_some_iff.mp hafter
  dsimp only
  split
  · exact h.release _
  · exact (h.modify _ _).release _

theorem unlinkEdge (h : p.Reached) (a b : α) : (g.unlinkEdge p a b).2.Reached := by
  unfold LinkGraph.unlinkEdge
  cases hafter : g.unlinkEdge? p a b with
  | none => exact h
  | some after => exact h.unlinkEdge? a b hafter

theorem unlinkAll (h : p.Reached) (a b : α) : (g.unlinkAll p a b).2.Reached := by
  unfold LinkGraph.unlinkAll
  generalize p.nodes.length = limit
  induction limit generalizing g p with
  | zero => exact h
  | succ limit ih =>
    unfold LinkGraph.unlinkUpTo
    split
    · exact h
    · next g' p' hafter => exact ih (h.unlinkEdge? a b hafter)

theorem erase (h : p.Reached) (source : α) (target : Option α) (mode : EraseMode) :
    (g.erase p source target mode).2.1.Reached := by
  have hscrub : (if mode = .unlink then g.scrub p source (g.related p source) else (g, p)).2.Reached := by
    split
    · exact foldl Prod.snd (fun _ other hs => hs.unlinkAll other source) h _
    · exact h
  unfold LinkGraph.erase
  generalize (if mode = .unlink then g.scrub p source (g.related p source) else (g, p)) = first at hscrub ⊢
  obtain ⟨g', p'⟩ := first
  cases target with
  | some target =>
    dsimp only
    cases hafter : g'.unlinkEdge? p' source target with
    | none => exact hscrub
    | some after =>
      have hone := hscrub.unlinkEdge? source target hafter
      dsimp only
      split
      · exact hone.unlinkEdge target source
      · exact hone
  | none =>
    dsimp only
    cases g'.head? source with
    | none => exact hscrub
    | some head =>
      have hchain := hscrub.releaseChain head.next
      dsimp only
      split
      · exact foldl Prod.snd (fun _ other hs => hs.unlinkEdge other source) hchain _
      · exact hchain

theorem renameTargets (h : p.Reached) (old new : α) : (g.renameTargets p old new).Reached :=
  foldl id (fun _ _ hs => foldl id (fun _ node hs => hs.modify node _) hs _) h g.heads

variable [Ord α]

theorem add (h : p.Reached) (source : α) (target : Option α) (oneWay : Bool) :
    (g.add p source target oneWay).2.Reached := by
  cases target with
  | none => exact h
  | some target =>
    unfold LinkGraph.add
    dsimp only
    split
    · exact h.alloc target _
    · exact (h.alloc target _).alloc source _

theorem replace (h : p.Reached) (old new : α) (oneWay : Bool) : (g.replace p old new oneWay).2.Reached := by
  have hrenamed : (g.renameTargets p old new).Reached := h.renameTargets old new
  unfold LinkGraph.replace
  dsimp only
  split
  · split
    · exact hrenamed
    · exact hrenamed.modify _ _
  · exact hrenamed

/-- **An operation of a graph** makes calls on the pool. -/
theorem onGraph (h : p.Reached) (op : GraphOp α) : (op.onGraph g p).2.Reached := by
  cases op with
  | add source target oneWay => exact h.add source target oneWay
  | erase source target mode => exact h.erase source target mode
  | replace old new oneWay => exact h.replace old new oneWay
  | removeEmpty => exact h
  | clear => exact h.clear

end NodePool.Reached

/-- A pool that graphs share is one that calls come to. -/
theorem Shelf.reached_run {ι α : Type} [DecidableEq ι] [DecidableEq α] [Ord α] (chunkSize : UInt64)
    (script : List (ι × GraphOp α)) : ((Shelf.start chunkSize).run script).pool.Reached :=
  NodePool.Reached.foldl Shelf.pool (fun _ entry hs => hs.onGraph entry.2) (.start chunkSize) script

end SchemaShift

import SchemaShift.Proofs.SharedPool
import SchemaShift.Proofs.TrailEnd

/-! The loop of a trace.

A trace takes the oldest edge that it has not taken yet until there is none or it
comes to a drop, and nothing but the edges bounds its steps (`RenameGraph.Walk`).
Every edge has a node of its own and none is taken twice, so on any graph in a
pool the loop comes to an end after as many steps as there are edges at most. A
name that it ends at has no edge left, and a trace of that name ends there as well
(`RenameGraph.exists_traced`). -/
namespace SchemaShift

/-- In an ordered graph an object has one head at most. -/
theorem LinkGraph.Ordered.filter_heads {α : Type} [DecidableEq α] [Ord α] [Std.LawfulEqOrd α] {g : LinkGraph α}
    (h : g.Ordered) (a : α) : g.heads.filter (fun head => head.object = a) = (g.head? a).toList := by
  have hlone : (g.heads.filter fun head => head.object = a).length ≤ 1 := by
    refine Nat.le_of_not_lt fun htwo => ?_
    have hlt := List.pairwise_iff_getElem.mp (h.filter fun head => head.object = a) 0 1 (by omega) htwo (by omega)
    have hobject : ∀ head ∈ g.heads.filter fun head => head.object = a, head.object = a := by simp
    exact ne_of_compare_lt hlt ((hobject _ (List.getElem_mem _)).trans (hobject _ (List.getElem_mem _)).symm)
  rw [head?, ← List.head?_filter]
  generalize (g.heads.filter fun head => head.object = a) = heads at hlone
  rcases heads with _ | ⟨head, _ | ⟨other, rest⟩⟩
  · rfl
  · rfl
  · exact absurd hlone (by simp)

namespace RenameGraph

open LinkGraph (Owned Steps)

/-! ### The edges of a graph -/

/-- What the graph of a log is to be. -/
def recorded (edges : List (Fate × Fate)) : Multimap Fate :=
  edges.foldl (fun (m : Multimap Fate) edge => m.add edge.1 (some edge.2) true) ∅

/-- **Building a history** takes up nodes for one graph. -/
theorem steps_ofEntries {ε : Type} [Entry ε] (es : Entries ε) (offset : Nat) {p : NodePool Fate} (h : p.Valid)
    (capacity : UInt64) : Steps (Owned fun _ : Fate => []) p (ofEntries es offset p capacity)
      (recorded (edges (es.values.drop offset))) :=
  (LinkGraph.refines_empty h).foldl (fun after (edge : Fate × Fate) => after.1.add after.2 edge.1 (some edge.2) true)
    (fun (m : Multimap Fate) edge => m.add edge.1 (some edge.2) true) (fun edge h => h.add edge.1 (some edge.2) true)
    (edges (es.values.drop offset))

/-- The edges of a graph with their nodes, head by head, and the oldest one of a head first. -/
def heldEdges (g : RenameGraph) (p : NodePool Fate) : List (NodeId × Fate × Fate) :=
  g.heads.flatMap fun head => (p.chain head.next).reverse.map fun entry => (entry.1, head.object, entry.2)

variable {g : RenameGraph} {p : NodePool Fate} {tagged taken taken' : List (NodeId × Fate × Fate)}
  {followed : List NodeId} {current stop stop' : Fate}

/-- The edges that leave an object are those of its chain. -/
theorem heldEdges_of (h : g.Ordered) (source : Fate) :
    (heldEdges g p).filter (fun edge => edge.2.1 = source) =
      (p.chain (g.firstEdge? source)).reverse.map fun entry => (entry.1, source, entry.2) := by
  have hsplit : ∀ heads : List (Node Fate), (heads.flatMap fun head =>
      (p.chain head.next).reverse.map fun entry => (entry.1, head.object, entry.2)).filter
        (fun edge => edge.2.1 = source) =
      (heads.filter fun head => head.object = source).flatMap fun head =>
        (p.chain head.next).reverse.map fun entry => (entry.1, source, entry.2) := by
    intro heads
    induction heads with
    | nil => rfl
    | cons head rest ih =>
      rw [List.flatMap_cons, List.filter_append, ih, List.filter_map]
      by_cases hsource : head.object = source
      · simp [Function.comp_def, hsource]
      · simp [Function.comp_def, hsource]
  rw [heldEdges, hsplit, h.filter_heads, LinkGraph.firstEdge?]
  cases g.head? source with
  | none =>
    have hnil : p.chain none = [] := NodePool.chain_of_linked rfl List.nodup_nil
    rw [Option.bind_none, hnil]
    rfl
  | some head => exact List.flatMap_singleton ..

/-- A graph holds the edges of its chains. -/
theorem holds_heldEdges {chain : Fate → List (NodeId × Fate)} {m : Multimap Fate}
    (h : LinkGraph.Refines g p chain m) : Holds g p (heldEdges g p) where
  ordered := h.ordered
  pool := h.pool
  nodup := by
    have hids : (heldEdges g p).map Prod.fst = g.heads.flatMap fun head => ((chain head.object).map Prod.fst).reverse := by
      rw [heldEdges, List.map_flatMap]
      refine List.flatMap_congr fun head hhead => ?_
      rw [← h.chain_eq, LinkGraph.firstEdge?_of_head? ((LinkGraph.head?_eq_some h.ordered).mpr ⟨hhead, rfl⟩)]
      simp [Function.comp_def]
    rw [hids, List.nodup_flatMap]
    refine ⟨fun head _ => List.nodup_reverse.mpr (h.nodup head.object), h.ordered.imp fun hlt id hid hid' => ?_⟩
    exact LinkGraph.ne_of_compare_lt hlt (h.apart (List.mem_reverse.mp hid) (List.mem_reverse.mp hid'))
  chains source := by
    have hlinked := h.linked source
    rw [← h.chain_eq source] at hlinked
    rw [chainOf, heldEdges_of h.ordered]
    simpa [Function.comp_def] using hlinked

/-! ### The loop -/

/-- From `current` on, with the nodes in `followed` behind it, the loop takes these edges and ends at
`stop`. -/
inductive Walk (g : RenameGraph) (p : NodePool Fate) :
    List NodeId → Fate → List (NodeId × Fate × Fate) → Fate → Prop
  | stay {followed : List NodeId} {current : Fate} (h : oldest? g p followed current = none) :
      Walk g p followed current [] current
  | drop {followed : List NodeId} {current : Fate} {id : NodeId}
      (h : oldest? g p followed current = some (id, .dropped)) :
      Walk g p followed current [(id, current, .dropped)] .dropped
  | go {followed : List NodeId} {current target stop : Fate} {id : NodeId} {taken : List (NodeId × Fate × Fate)}
      (h : oldest? g p followed current = some (id, target)) (hnamed : target ≠ .dropped)
      (hrest : Walk g p (id :: followed) target taken stop) :
      Walk g p followed current ((id, current, target) :: taken) stop

/-- The loop has no choice. -/
theorem Walk.unique (h : Walk g p followed current taken stop) (h' : Walk g p followed current taken' stop') :
    taken' = taken ∧ stop' = stop := by
  induction h generalizing taken' stop' with
  | stay h =>
    cases h' with
    | stay => exact ⟨rfl, rfl⟩
    | drop h' => exact absurd (h.symm.trans h') (by simp)
    | go h' => exact absurd (h.symm.trans h') (by simp)
  | drop h =>
    cases h' with
    | stay h' => exact absurd (h'.symm.trans h) (by simp)
    | drop h' =>
      obtain ⟨rfl, _⟩ := Prod.mk.inj (Option.some.inj (h'.symm.trans h))
      exact ⟨rfl, rfl⟩
    | go h' hnamed =>
      obtain ⟨_, hdropped⟩ := Prod.mk.inj (Option.some.inj (h'.symm.trans h))
      exact absurd hdropped hnamed
  | go h hnamed _ ih =>
    cases h' with
    | stay h' => exact absurd (h'.symm.trans h) (by simp)
    | drop h' =>
      obtain ⟨_, hdropped⟩ := Prod.mk.inj (Option.some.inj (h'.symm.trans h))
      exact absurd hdropped.symm hnamed
    | go h' _ hrest =>
      obtain ⟨rfl, rfl⟩ := Prod.mk.inj (Option.some.inj (h'.symm.trans h))
      obtain ⟨rfl, rfl⟩ := ih hrest
      exact ⟨rfl, rfl⟩

/-- The trail is what the loop takes, when it may take as much. -/
theorem Walk.trailUpTo (h : Walk g p followed current taken stop) {limit : Nat} (hlimit : taken.length ≤ limit) :
    g.trailUpTo p limit followed current = taken.map Prod.snd := by
  induction h generalizing limit with
  | stay h =>
    cases limit with
    | zero => rfl
    | succ limit => rw [RenameGraph.trailUpTo, h]; rfl
  | drop h =>
    cases limit with
    | zero => exact absurd hlimit (by simp)
    | succ limit => rw [RenameGraph.trailUpTo, h]; rfl
  | go h hnamed _ ih =>
    cases limit with
    | zero => exact absurd hlimit (by simp)
    | succ limit =>
      rw [RenameGraph.trailUpTo, h]
      dsimp only
      rw [if_neg hnamed, ih (Nat.le_of_succ_le_succ hlimit)]
      rfl

/-- The loop ends where its last edge leads. -/
theorem Walk.trailEnd (h : Walk g p followed current taken stop) : trailEnd current (taken.map Prod.snd) = stop := by
  induction h with
  | stay => rfl
  | drop => rfl
  | go _ _ _ ih => rw [List.map_cons, trailEnd_cons, ih]

/-- **The loop comes to an end**, and of every name it takes only edges that are left over, in order:
each step takes one of them away. -/
theorem Holds.exists_walk (h : Holds g p tagged) (followed : List NodeId) (current : Fate) :
    ∃ taken stop, Walk g p followed current taken stop ∧ ∀ source,
      (taken.filter fun edge => edge.2.1 = source) <+: (untaken followed tagged).filter fun edge => edge.2.1 = source := by
  induction hn : (untaken followed tagged).length using Nat.strongRecOn generalizing followed current with
  | ind n ih =>
    have hstep := h.oldest? followed current
    cases hfind : (untaken followed tagged).find? fun edge => edge.2.1 = current with
    | none =>
      rw [hfind] at hstep
      exact ⟨[], current, .stay hstep, fun _ => List.nil_prefix⟩
    | some edge =>
      obtain ⟨id, source, target⟩ := edge
      rw [hfind] at hstep
      obtain ⟨rfl, hfilter⟩ := filter_of_find? hfind
      have hshorter : (untaken (id :: followed) tagged).length < n := by
        have hpos := List.length_pos_of_mem (List.mem_of_find?_eq_some hfind)
        rw [untaken_cons h.nodup hfind, List.length_eraseP_of_mem (List.mem_of_find?_eq_some hfind) (by simp)]
        omega
      by_cases htarget : target = .dropped
      · subst htarget
        refine ⟨_, _, .drop hstep, fun v => ?_⟩
        rw [hfilter v]
        exact List.prefix_append _ _
      · obtain ⟨taken, stop, hwalk, hfirst⟩ := ih _ hshorter (id :: followed) target rfl
        refine ⟨_, _, .go hstep htarget hwalk, fun v => ?_⟩
        rw [hfilter v, ← untaken_cons h.nodup hfind, ← List.singleton_append, List.filter_append]
        exact (List.prefix_append_right_inj _).mpr (hfirst v)

/-! ### What a trace does to a graph -/

/-- The loop from `name` takes these edges and ends at `stop`, and the trace answers so. -/
structure Traced (g : RenameGraph) (p : NodePool Fate) (name : String) (taken : List (NodeId × Fate × Fate))
    (stop : Fate) : Prop where
  walk : Walk g p [] (.name name) taken stop
  only : ∀ taken' stop', Walk g p [] (.name name) taken' stop' → taken' = taken ∧ stop' = stop
  trail : g.trail p name = taken.map Prod.snd
  length_le : taken.length ≤ (heldEdges g p).length
  once : (taken.map Prod.fst).Nodup
  /-- The edges of each object are taken in order, the oldest one first. -/
  inOrder : ∀ source, ((taken.filter fun edge => edge.2.1 = source).map fun edge => (edge.1, edge.2.2)) <+:
    (p.chain (g.firstEdge? source)).reverse
  /-- Graph and pool stay, and there is an answer unless the name has no edge. -/
  answer : g.traceName p name false = (if g.related p (.name name) = [] then none else some stop, g, p)
  again : ∀ r, (g.traceName p name false).1 = some (.name r) →
    (g.traceName p r false).1 = none ∨ (g.traceName p r false).1 = some (.name r)

theorem Holds.trace?_again (h : Holds g p tagged) {name r : String} (htrace : g.trace? p name = some (.name r)) :
    g.trace? p r = none ∨ g.trace? p r = some (.name r) := by
  rw [h.trace?] at htrace ⊢
  obtain ⟨_, _, hend⟩ := Option.map_eq_some_iff.mp htrace
  rw [greedyEnd_of_greedyEnd hend]
  cases (tagged.map Prod.snd).find? fun edge => edge.1 = .name r with
  | none => exact .inl rfl
  | some edge => exact .inr rfl

/-- **A trace comes to an end on every graph**, whatever edges it has and whatever else is in the pool: it
takes no edge twice and leaves the graph alone, and where it ends at a name the name stays what it is. -/
theorem exists_traced {chain : Fate → List (NodeId × Fate)} {m : Multimap Fate} (h : LinkGraph.Refines g p chain m)
    (name : String) : ∃ taken stop, Traced g p name taken stop := by
  have hholds := holds_heldEdges h
  have hall : untaken [] (heldEdges g p) = heldEdges g p := by simp [untaken]
  obtain ⟨taken, stop, hwalk, hfirst⟩ := hholds.exists_walk [] (.name name)
  rw [hall] at hfirst
  obtain ⟨part, hperm, hsub⟩ := subperm_of_filter hfirst
  have hlength : taken.length ≤ (heldEdges g p).length := hperm.length_eq ▸ hsub.length_le
  have htrail : g.trail p name = taken.map Prod.snd := hwalk.trailUpTo (Nat.le_trans hlength hholds.length_le)
  refine ⟨taken, stop, hwalk, fun _ _ => hwalk.unique, htrail, hlength, ?once, ?inOrder, ?answer,
    fun r => hholds.trace?_again⟩
  case once =>
    have hnodup : (part.map Prod.fst).Nodup := hholds.nodup.sublist (hsub.map _)
    exact (hperm.map _).nodup_iff.mp hnodup
  case inOrder =>
    intro source
    have hchain := (hfirst source).map fun edge => (edge.1, edge.2.2)
    rw [heldEdges_of h.ordered, List.map_map] at hchain
    simpa [Function.comp_def] using hchain
  case answer =>
    have hedge := (h.linked (.name name)).isSome
    rw [traceName, if_neg Bool.false_ne_true, trace?, htrail, hwalk.trailEnd, LinkGraph.related, h.chain_eq]
    cases hchain : chain (.name name) with
    | nil =>
      rw [hchain, List.isEmpty_nil, Bool.not_true, Option.isSome_eq_false_iff, Option.isNone_iff_eq_none] at hedge
      rw [hedge]
      rfl
    | cons entry rest =>
      rw [hchain] at hedge
      obtain ⟨id, hid⟩ := Option.isSome_iff_exists.mp hedge
      rw [hid]
      rfl

/-- Names that go back and forth, one way twice and another way both at once, an edge that leaves the mark
of what is dropped, a head without edges, and another graph in the same pool. -/
def tangles : List (Nat × GraphOp Fate) :=
  [(0, .add (.name "a") (some (.name "b")) true), (1, .add (.name "a") (some .dropped) true),
    (0, .add (.name "b") (some (.name "a")) true), (0, .add (.name "a") (some (.name "b")) true),
    (0, .add (.name "b") (some (.name "c")) false), (0, .add .dropped (some (.name "a")) true),
    (0, .add (.name "d") none true)]

def tangled : Shelf Nat Fate := (Shelf.start 2).run tangles

theorem exists_traced_tangled :
    (∃ chain m, LinkGraph.Refines (tangled.graph 0) tangled.pool chain m) ∧
    (∃ taken stop, Traced (tangled.graph 0) tangled.pool "a" taken stop) ∧
    (∃ taken stop, Traced (tangled.graph 0) tangled.pool "d" taken stop) ∧
    (traceName (tangled.graph 0) tangled.pool "a" false).1 = some (.name "b") ∧
    (traceName (tangled.graph 0) tangled.pool "d" false).1 = none ∧
    trail (tangled.graph 0) tangled.pool "a" = [(.name "a", .name "b"), (.name "b", .name "a"),
      (.name "a", .name "b"), (.name "b", .name "c"), (.name "c", .name "b")] ∧
    (heldEdges (tangled.graph 0) tangled.pool).length = 6 := by
  obtain ⟨chain, hrun⟩ := (Shelf.refines_start (ι := Nat) (α := Fate) 2).run tangles
  have h : LinkGraph.Refines (tangled.graph 0) tangled.pool (chain 0) _ := hrun.graph 0
  exact ⟨⟨_, _, h⟩, exists_traced h "a", exists_traced h "d", by decide +kernel, by decide +kernel, by decide +kernel,
    by decide +kernel⟩

end RenameGraph
end SchemaShift

import SchemaShift.RenameGraph
import SchemaShift.Proofs.LinkGraph

/-! The trail of a name.

`greedyEnd` follows a list of edges from a name: it always takes the oldest edge
that it has not taken yet, wherever in the list that stands. The graph of a log
holds the edges of each name as a chain, the latest one first (`Holds`), and a
trace of it follows the log in just this way (`RenameGraph.Holds.trace?`). -/
namespace SchemaShift

namespace Fate

instance : Std.TransOrd Fate where
  eq_swap {a b} := by
    cases a with
    | name a =>
      cases b with
      | name b => exact @Std.OrientedCmp.eq_swap String compare _ a b
      | dropped => rfl
    | dropped => cases b <;> rfl
  isLE_trans {a b c} hab hbc := by
    cases c with
    | dropped => cases a <;> rfl
    | name c =>
      cases b with
      | dropped => exact absurd hbc (by simp [compare, order])
      | name b =>
        cases a with
        | dropped => exact absurd hab (by simp [compare, order])
        | name a => exact @Std.TransCmp.isLE_trans String compare _ a b c hab hbc

instance : Std.LawfulEqOrd Fate where
  compare_self {a} := by
    cases a with
    | name a => exact @Std.ReflCmp.compare_self String compare _ a
    | dropped => rfl
  eq_of_compare {a b} h := by
    cases a <;> cases b
    · exact congrArg name (@Std.LawfulEqCmp.eq_of_compare String compare _ _ _ h)
    · exact absurd h (by simp [compare, order])
    · exact absurd h (by simp [compare, order])
    · rfl

end Fate

namespace RenameGraph

/-! ### The trail over a list of edges -/

/-- Follows edges from `current`: the oldest edge of a name, which is then gone. -/
def greedyTrail (edges : List (Fate × Fate)) (current : Fate) : List (Fate × Fate) :=
  match _h : edges.find? fun edge => edge.1 = current with
  | none => []
  | some edge =>
    edge :: if edge.2 = .dropped then [] else
      greedyTrail (edges.eraseP fun edge => edge.1 = current) edge.2
termination_by edges.length
decreasing_by
  rw [List.length_eraseP_of_mem (List.mem_of_find?_eq_some _h) (by simpa using List.find?_some _h)]
  have := List.length_pos_of_mem (List.mem_of_find?_eq_some _h)
  omega

/-- Where the edges lead from `current`. -/
def greedyEnd (edges : List (Fate × Fate)) (current : Fate) : Fate :=
  trailEnd current (greedyTrail edges current)

variable {edges : List (Fate × Fate)} {current : Fate}

theorem greedyTrail_of_none (h : edges.find? (fun edge => edge.1 = current) = none) :
    greedyTrail edges current = [] := by
  unfold greedyTrail
  split
  · rfl
  · next edge h' => simp [h] at h'

theorem greedyTrail_of_some {edge : Fate × Fate}
    (h : edges.find? (fun edge => edge.1 = current) = some edge) :
    greedyTrail edges current = edge :: if edge.2 = .dropped then [] else
      greedyTrail (edges.eraseP fun edge => edge.1 = current) edge.2 := by
  rw [greedyTrail]
  split
  · next h' => simp [h] at h'
  · next edge' h' =>
    obtain rfl : edge = edge' := Option.some.inj (h.symm.trans h')
    rfl

theorem trailEnd_cons (start : Fate) (edge : Fate × Fate) (trail : List (Fate × Fate)) :
    trailEnd start (edge :: trail) = trailEnd edge.2 trail := by
  cases trail with
  | nil => rfl
  | cons next rest => simp [trailEnd, List.getLast?_cons]

/-- Without an edge a name stays what it is. -/
theorem greedyEnd_of_none (h : edges.find? (fun edge => edge.1 = current) = none) :
    greedyEnd edges current = current := by
  rw [greedyEnd, greedyTrail_of_none h]
  rfl

theorem greedyEnd_of_some {edge : Fate × Fate}
    (h : edges.find? (fun edge => edge.1 = current) = some edge) :
    greedyEnd edges current = if edge.2 = .dropped then .dropped else
      greedyEnd (edges.eraseP fun edge => edge.1 = current) edge.2 := by
  rw [greedyEnd, greedyTrail_of_some h, trailEnd_cons]
  split
  · next hdropped => exact hdropped
  · rfl

/-! ### The graph of a log -/

/-- The chain of `source`: the nodes and targets of its edges, the latest one first. -/
def chainOf (source : Fate) (tagged : List (NodeId × Fate × Fate)) : List (NodeId × Fate) :=
  ((tagged.filter fun edge => edge.2.1 = source).map fun edge => (edge.1, edge.2.2)).reverse

/-- The graph holds these edges in these nodes. -/
structure Holds (g : RenameGraph) (p : NodePool Fate) (tagged : List (NodeId × Fate × Fate)) :
    Prop where
  ordered : g.Ordered
  pool : p.Valid
  nodup : (tagged.map Prod.fst).Nodup
  chains : ∀ source, p.Linked (g.firstEdge? source) (chainOf source tagged)

variable {g : RenameGraph} {p : NodePool Fate} {tagged : List (NodeId × Fate × Fate)}

theorem holds_empty (h : p.Valid) : Holds {} p [] where
  ordered := List.Pairwise.nil
  pool := h
  nodup := List.nodup_nil
  chains _ := rfl

theorem mem_chainOf {source : Fate} {edge : NodeId × Fate} :
    edge ∈ chainOf source tagged ↔ (edge.1, source, edge.2) ∈ tagged := by
  simp only [chainOf, List.mem_reverse, List.mem_map, List.mem_filter, decide_eq_true_eq]
  constructor
  · rintro ⟨⟨id, source', target⟩, ⟨hmem, rfl⟩, rfl⟩
    exact hmem
  · exact fun hmem => ⟨_, ⟨hmem, rfl⟩, rfl⟩

theorem Holds.in_use (h : Holds g p tagged) : ∀ edge ∈ tagged, p.get? edge.1 ≠ none :=
  fun edge hedge => (h.chains edge.2.1).in_use (edge.1, edge.2.2) (mem_chainOf.mpr hedge)

/-- Every edge has a node of its own. -/
theorem Holds.length_le (h : Holds g p tagged) : tagged.length ≤ p.nodes.length := by
  have hle := NodePool.length_le_of_in_use (p := p) h.nodup fun id hid => by
    obtain ⟨edge, hedge, rfl⟩ := List.mem_map.mp hid
    exact h.in_use edge hedge
  simpa using hle

theorem Holds.chain (h : Holds g p tagged) (source : Fate) :
    p.chain (g.firstEdge? source) = chainOf source tagged := by
  refine NodePool.chain_of_linked (h.chains source) ?_
  rw [chainOf, List.map_reverse, List.nodup_reverse, List.map_map]
  exact (List.filter_sublist.map _).nodup h.nodup

theorem chainOf_concat (source : Fate) (tagged : List (NodeId × Fate × Fate))
    (edge : NodeId × Fate × Fate) : chainOf source (tagged ++ [edge]) =
      if edge.2.1 = source then (edge.1, edge.2.2) :: chainOf source tagged
      else chainOf source tagged := by
  split
  · next h => simp [chainOf, h]
  · next h => simp [chainOf, h]

/-- A new edge takes a node that no other edge has. -/
theorem Holds.addEdge (h : Holds g p tagged) (source target : Fate) :
    ∃ id, Holds (g.addEdge p source target).1 (g.addEdge p source target).2
      (tagged ++ [(id, source, target)]) := by
  have hhead : (g.withHead source).Ordered := LinkGraph.pairwise_insertHead source h.ordered
  have hfirst := LinkGraph.firstEdge?_withHead h.ordered source source
  obtain ⟨ha, hvalid⟩ := NodePool.alloc_spec h.pool target ((g.withHead source).firstEdge? source)
  refine ⟨(p.alloc target ((g.withHead source).firstEdge? source)).1,
    hhead.withFirst _ _, hvalid, ?_, fun other => ?_⟩
  · rw [List.map_append, List.map_singleton, List.nodup_append]
    refine ⟨h.nodup, List.nodup_singleton _, fun id hid id' hid' => ?_⟩
    rintro rfl
    obtain ⟨edge, hedge, rfl⟩ := List.mem_map.mp hid
    exact h.in_use edge hedge (List.mem_singleton.mp hid' ▸ ha.fresh)
  · have hsome := LinkGraph.head?_withHead_self h.ordered source
    rw [chainOf_concat, LinkGraph.addEdge]
    simp only [LinkGraph.firstEdge?_withFirst, LinkGraph.firstEdge?_withHead h.ordered]
    by_cases hother : source = other
    · subst hother
      rw [if_pos ⟨rfl, hsome⟩, if_pos rfl]
      exact ⟨rfl, _, hfirst ▸ ha.held, (h.chains source).alloc (hfirst ▸ ha)⟩
    · rw [if_neg fun hboth => hother hboth.1, if_neg hother]
      exact (h.chains other).alloc (hfirst ▸ ha)

/-- The graph of a log holds its edges in order. -/
theorem Holds.addEdges (h : Holds g p tagged) (edges : List (Fate × Fate)) :
    ∃ tagged', Holds (g.addEdges p edges).1 (g.addEdges p edges).2 tagged' ∧
      tagged'.map Prod.snd = tagged.map Prod.snd ++ edges := by
  induction edges generalizing g p tagged with
  | nil => exact ⟨tagged, h, by simp⟩
  | cons edge rest ih =>
    obtain ⟨id, hid⟩ := h.addEdge edge.1 edge.2
    obtain ⟨tagged', hholds, hedges⟩ := ih hid
    refine ⟨tagged', hholds, ?_⟩
    rw [hedges, List.map_append, List.append_assoc]
    rfl

/-! ### The trail over a graph -/

/-- The edges that a trail has left over. -/
def untaken (followed : List NodeId) (tagged : List (NodeId × Fate × Fate)) :
    List (NodeId × Fate × Fate) :=
  tagged.filter fun edge => !followed.contains edge.1

theorem Holds.oldest? (h : Holds g p tagged) (followed : List NodeId) (current : Fate) :
    oldest? g p followed current =
      ((untaken followed tagged).find? fun edge => edge.2.1 = current).map fun edge =>
        (edge.1, edge.2.2) := by
  rw [RenameGraph.oldest?, h.chain, chainOf, List.filter_reverse, List.getLast?_reverse,
    List.filter_map, List.filter_filter, List.head?_map, List.head?_filter, untaken, List.find?_filter]
  congr 2
  funext edge
  simp

/-- The edge that the trail takes is left over no more. -/
theorem untaken_cons (hnodup : (tagged.map Prod.fst).Nodup) {followed : List NodeId}
    {edge : NodeId × Fate × Fate}
    (h : (untaken followed tagged).find? (fun edge => edge.2.1 = current) = some edge) :
    untaken (edge.1 :: followed) tagged =
      (untaken followed tagged).eraseP fun edge => edge.2.1 = current := by
  have hsplit : untaken (edge.1 :: followed) tagged =
      (untaken followed tagged).filter fun other => other.1 != edge.1 := by
    rw [untaken, untaken, List.filter_filter]
    congr 1
    funext other
    cases h : other.1 == edge.1 <;> simp_all
  have hnodup' : ((untaken followed tagged).map Prod.fst).Nodup :=
    (List.filter_sublist.map _).nodup hnodup
  obtain ⟨hcurrent, front, back, happend, hfront⟩ := List.find?_eq_some_iff_append.mp h
  rw [hsplit, happend]
  rw [happend, List.map_append, List.map_cons, List.nodup_append, List.nodup_cons] at hnodup'
  obtain ⟨_, ⟨hback, _⟩, hdisjoint⟩ := hnodup'
  have hkeepFront : front.filter (fun other => other.1 != edge.1) = front :=
    List.filter_eq_self.mpr fun other hother => bne_iff_ne.mpr
      (hdisjoint _ (List.mem_map_of_mem hother) _ List.mem_cons_self)
  have hkeepBack : back.filter (fun other => other.1 != edge.1) = back :=
    List.filter_eq_self.mpr fun other hother => bne_iff_ne.mpr fun heq =>
      hback (heq ▸ List.mem_map_of_mem hother)
  rw [List.filter_append, List.filter_cons_of_neg (by simp), hkeepFront, hkeepBack,
    List.eraseP_append_right _ fun other hother => by simpa using hfront other hother,
    List.eraseP_cons_of_pos (by exact hcurrent)]

/-- A trail over a graph takes the edges that a list of them would give it. -/
theorem Holds.trailUpTo (h : Holds g p tagged) {limit : Nat} {followed : List NodeId}
    (hlimit : (untaken followed tagged).length ≤ limit) (current : Fate) :
    trailUpTo g p limit followed current =
      greedyTrail ((untaken followed tagged).map Prod.snd) current := by
  induction limit generalizing followed current with
  | zero =>
    rw [List.length_eq_zero_iff.mp (Nat.le_zero.mp hlimit), greedyTrail_of_none rfl]
    rfl
  | succ limit ih =>
    have hfind : ((untaken followed tagged).map Prod.snd).find? (fun edge => edge.1 = current) =
        ((untaken followed tagged).find? fun edge => edge.2.1 = current).map Prod.snd :=
      List.find?_map
    rw [RenameGraph.trailUpTo, h.oldest?]
    cases hnext : (untaken followed tagged).find? fun edge => edge.2.1 = current with
    | none =>
      rw [hnext] at hfind
      rw [greedyTrail_of_none hfind]
      rfl
    | some edge =>
      obtain ⟨id, source, target⟩ := edge
      obtain rfl : source = current := by simpa using List.find?_some hnext
      have hshorter : (untaken (id :: followed) tagged).length ≤ limit := by
        rw [untaken_cons h.nodup hnext, List.length_eraseP_of_mem (List.mem_of_find?_eq_some hnext)
          (by simp)]
        omega
      have hrest : (untaken (id :: followed) tagged).map Prod.snd =
          ((untaken followed tagged).map Prod.snd).eraseP fun edge => edge.1 = source := by
        rw [untaken_cons h.nodup hnext, List.eraseP_map]
        rfl
      rw [hnext] at hfind
      rw [greedyTrail_of_some hfind, ← hrest, ← ih hshorter]
      rfl

/-- The trail of a name is the one over the edges. -/
theorem Holds.trail (h : Holds g p tagged) (name : String) :
    g.trail p name = greedyTrail (tagged.map Prod.snd) (.name name) := by
  have hall : untaken [] tagged = tagged := by simp [untaken]
  have hlimit : (untaken [] tagged).length ≤ p.nodes.length := by
    rw [hall]
    exact h.length_le
  rw [RenameGraph.trail, h.trailUpTo hlimit, hall]

/-- **What a trace of a graph answers.** -/
theorem Holds.trace? (h : Holds g p tagged) (name : String) :
    g.trace? p name = ((tagged.map Prod.snd).find? fun edge => edge.1 = .name name).map fun _ =>
      greedyEnd (tagged.map Prod.snd) (.name name) := by
  have hedge : (g.firstEdge? (.name name)).isSome =
      ((tagged.map Prod.snd).find? fun edge => edge.1 = .name name).isSome := by
    rw [(h.chains (.name name)).isSome, chainOf, List.isEmpty_reverse, List.isEmpty_map,
      List.find?_map, Option.isSome_map, ← List.head?_filter]
    show _ = (tagged.filter fun edge => edge.2.1 = .name name).head?.isSome
    cases tagged.filter fun edge => edge.2.1 = .name name <;> rfl
  rw [RenameGraph.trace?, h.trail]
  cases hfirst : g.firstEdge? (.name name) <;>
    cases hfind : (tagged.map Prod.snd).find? fun edge => edge.1 = .name name <;> simp_all [greedyEnd]

end RenameGraph

end SchemaShift

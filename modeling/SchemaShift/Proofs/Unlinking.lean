import SchemaShift.Proofs.MirroredGraph

/-! Unlinking an object.

To unlink an object is to take the edges that lead back to it out of the lists of
the objects that it relates to, and then its own edges, or one of them. What that
leaves of every list is told of the multimap (`Multimap.targets_erase_unlink`) and
carried over to every graph that a script makes (`Shelf.unlinks_run`): the lists of
other objects lose the edges back and nothing else, and no related object is left
with one. The object is reported if a target is given or the object has a head; one
without a head that is to lose all of its edges goes unreported. -/
namespace SchemaShift

/-! ### The lists of a multimap -/

namespace Multimap

variable {α : Type} [DecidableEq α] [Ord α] [Std.TransOrd α] [Std.LawfulEqOrd α]
  (m : Multimap α) (source a : α) (target : Option α)

/-- What unlinking leaves of the list of the object itself: without its edges to itself, the first one to
the target goes, or all of them. -/
def ownLeft (source : α) (own : List α) : Option α → List α
  | some target => (own.filter (· ≠ source)).erase target
  | none => []

/-- What unlinking leaves of the list of `a`, where `own` is that of the object itself. -/
def unlinkedList (source : α) (target : Option α) (own : List α) (a : α) (list : List α) : List α :=
  if a = source then ownLeft source own target
  else if a ∈ own then list.filter (· ≠ source)
  else list

/-- An object that relates to itself loses these edges like those of any other object. -/
theorem targets_unlink_self : (m.unlink source).targets source = (m.targets source).filter (· ≠ source) := by
  rw [targets_unlink]
  split
  · rfl
  · next hself =>
    refine (List.filter_eq_self.mpr fun other hother => ?_).symm
    simpa using fun heq : other = source => hself (heq ▸ hother)

/-- Erasing the first edge to a target, where there is one or not. -/
theorem targets_eraseEdge (target : α) :
    targets (if target ∈ m.targets source then m.removeFirst source target else m) a =
      if a = source then (m.targets source).erase target else m.targets a := by
  have hfirst : (m.removeFirst source target).targets a =
      if source = a then (m.targets a).erase target else m.targets a :=
    m.targets_modify source a (f := fun list => list.erase target) rfl
  by_cases hmem : target ∈ m.targets source
  · rw [if_pos hmem, hfirst]
    by_cases ha : a = source
    · rw [if_pos ha, if_pos ha.symm, ha]
    · rw [if_neg ha, if_neg (Ne.symm ha)]
  · rw [if_neg hmem, List.erase_of_not_mem hmem]
    split
    · next ha => rw [ha]
    · rfl

/-- **What unlinking leaves** of the list of every object. -/
theorem targets_erase_unlink : (m.erase source target .unlink).targets a =
    unlinkedList source target (m.targets source) a (m.targets a) := by
  have hothers : a ≠ source → (m.unlink source).targets a =
      if a ∈ m.targets source then (m.targets a).filter (· ≠ source) else m.targets a :=
    fun _ => m.targets_unlink source a
  cases target with
  | none =>
    have herase : m.erase source none .unlink = (m.unlink source).empty source := rfl
    rw [herase, targets_empty, unlinkedList]
    by_cases ha : a = source
    · rw [if_pos ha, if_pos ha.symm, ownLeft]
    · rw [if_neg ha, if_neg (Ne.symm ha), hothers ha]
  | some target =>
    have herase : m.erase source (some target) .unlink =
        if target ∈ (m.unlink source).targets source then (m.unlink source).removeFirst source target
        else m.unlink source := rfl
    rw [herase, targets_eraseEdge, targets_unlink_self, unlinkedList]
    by_cases ha : a = source
    · rw [if_pos ha, if_pos ha, ownLeft]
    · rw [if_neg ha, if_neg ha, hothers ha]

theorem isSome_modify (f : List α → List α) :
    (m.modify source f : Multimap α)[a]?.isSome = m[a]?.isSome := by
  rw [getElem?_modify]
  split
  · exact Option.isSome_map
  · rfl

/-- Keys stay, also those whose lists are empty now. -/
theorem isSome_erase_unlink : (m.erase source target .unlink)[a]?.isSome = m[a]?.isSome := by
  have hunlink : (m.unlink source)[a]?.isSome = m[a]?.isSome := by rw [getElem?_unlink, Option.isSome_map]
  cases target with
  | none => exact ((m.unlink source).isSome_modify source a _).trans hunlink
  | some target =>
    have herase : m.erase source (some target) .unlink =
        if target ∈ (m.unlink source).targets source then (m.unlink source).removeFirst source target
        else m.unlink source := rfl
    rw [herase]
    split
    · exact ((m.unlink source).isSome_modify source a _).trans hunlink
    · exact hunlink

omit [Ord α] [Std.TransOrd α] [Std.LawfulEqOrd α] in
/-- No related object keeps an edge back. -/
theorem not_mem_unlinkedList (own list : List α) (h : a ∈ own) : source ∉ unlinkedList source target own a list := by
  by_cases ha : a = source
  · rw [unlinkedList, if_pos ha]
    cases target with
    | none => exact List.not_mem_nil
    | some target =>
      intro hmem
      simpa using List.mem_of_mem_erase hmem
  · rw [unlinkedList, if_neg ha, if_pos h]
    simp

end Multimap

/-! ### A graph -/

namespace LinkGraph

variable {α : Type} [DecidableEq α] [Ord α]

/-- What comes of unlinking `source` in the graph `g`: the graph and the pool afterwards, and the object
that is reported. -/
structure Unlinks (g : LinkGraph α) (p : NodePool α) (source : α) (target : Option α)
    (after : LinkGraph α × NodePool α × Option α) : Prop where
  /-- The object is reported once, by its name, unless it has no head and no target is given. -/
  reported : after.2.2 = if target ≠ none ∨ g.head? source ≠ none then some source else none
  noneBack : ∀ object ∈ g.related p source, source ∉ after.1.related after.2.1 object
  /-- Other objects lose the edges back, if they are related, and keep the rest in order. -/
  others : ∀ object, object ≠ source → after.1.related after.2.1 object =
    if object ∈ g.related p source then (g.related p object).filter (· ≠ source) else g.related p object
  /-- The object loses the edges to itself and then the first one to the target, or all of them. -/
  own : after.1.related after.2.1 source = Multimap.ownLeft source (g.related p source) target
  heads : ∀ object, (after.1.head? object).isSome = (g.head? object).isSome

variable [Std.TransOrd α] [Std.LawfulEqOrd α] {g : LinkGraph α} {p : NodePool α}
  {chain : α → List (NodeId × α)} {m : Multimap α}

theorem Refines.unlinks (h : Refines g p chain m) (source : α) (target : Option α) :
    g.Unlinks p source target (g.erase p source target .unlink) := by
  obtain ⟨⟨chain', hafter, _⟩, hreport⟩ := h.erase source target .unlink
  have hlists : ∀ object, (g.erase p source target .unlink).1.related (g.erase p source target .unlink).2.1 object =
      Multimap.unlinkedList source target (g.related p source) object (g.related p object) := by
    intro object
    rw [hafter.related, m.targets_erase_unlink, h.related, h.related]
  refine ⟨?reported, fun object hobject => ?noneBack, fun object hne => ?others, ?own, fun object => ?heads⟩
  case reported =>
    have hhead : source ∈ m ↔ g.head? source ≠ none := h.mem_iff source
    rw [hreport, Multimap.unlinked]
    simp only [true_and, hhead]
  case noneBack =>
    rw [hlists]
    exact Multimap.not_mem_unlinkedList source object target _ _ hobject
  case others => rw [hlists, Multimap.unlinkedList, if_neg hne]
  case own => rw [hlists, Multimap.unlinkedList, if_pos rfl]
  case heads =>
    have hkeys := m.isSome_erase_unlink source object target
    rwa [hafter.lists, h.lists, Option.isSome_map, Option.isSome_map] at hkeys

end LinkGraph

/-! ### A graph on a shelf -/

namespace Shelf

variable {ι α : Type} [DecidableEq ι] [DecidableEq α] [Ord α] [Std.TransOrd α] [Std.LawfulEqOrd α]

/-- **Unlinking leaves no way back**, in every graph that a script makes, and the other graphs of the
pool as they are. -/
theorem unlinks_run (chunkSize : UInt64) (script : List (ι × GraphOp α)) (i : ι) (source : α) (target : Option α) :
    let s : Shelf ι α := (start chunkSize).run script
    (s.graph i).Unlinks s.pool source target ((s.graph i).erase s.pool source target .unlink) ∧
      ∀ j, j ≠ i → ∀ object, (s.graph j).related ((s.graph i).erase s.pool source target .unlink).2.1 object =
        (s.graph j).related s.pool object := by
  intro s
  obtain ⟨chain, h⟩ := (refines_start (ι := ι) (α := α) chunkSize).run script
  refine ⟨(h.graph i).unlinks source target, fun j hj object => ?_⟩
  obtain ⟨chain', h'⟩ := h.call i (.erase source target .unlink)
  have hother := (h'.graph j).related object
  rw [Function.update_of_ne hj, ← (h.graph j).related object] at hother
  have hgraph : (s.call i (.erase source target .unlink)).graph j = s.graph j := Function.update_of_ne hj _ _
  rwa [hgraph] at hother

/-- Edges between 1 and 2, twice from 1 to itself, from 1 to 3 and from 4 to 1. -/
def star : List (Unit × GraphOp Nat) :=
  [((), .add 1 (some 2) false), ((), .add 1 (some 1) false), ((), .add 1 (some 3) true), ((), .add 4 (some 1) true)]

/-- 1 keeps its edge to 2, and 4, to which it does not relate, the one to 1. 5, which has no head, is reported
with a target only. -/
theorem unlinks_run_star :
    let s : Shelf Unit Nat := (start 2).run star
    let after := fun source target => (s.graph ()).erase s.pool source target .unlink
    (s.graph ()).Unlinks s.pool 1 (some 3) (after 1 (some 3)) ∧ (s.graph ()).related s.pool 1 = [3, 1, 1, 2] ∧
      [1, 2, 4].map ((after 1 (some 3)).1.related (after 1 (some 3)).2.1) = [[2], [], [1]] ∧
      (after 1 (some 3)).2.2 = some 1 ∧ (after 1 none).2.2 = some 1 ∧ (after 5 none).2.2 = none ∧
      (after 5 (some 1)).2.2 = some 5 := by
  intro s after
  have hunlinks : ∀ source target, (s.graph ()).Unlinks s.pool source target (after source target) :=
    fun source target => (unlinks_run 2 star () source target).1
  have hone := hunlinks 1 (some 3)
  have hlists : [1, 2, 4].map ((after 1 (some 3)).1.related (after 1 (some 3)).2.1) = [[2], [], [1]] := by
    simp only [List.map_cons, List.map_nil]
    rw [hone.own, hone.others 2 (by decide), hone.others 4 (by decide)]
    decide +kernel
  refine ⟨hone, by decide +kernel, hlists, ?_, ?_, ?_, ?_⟩
  all_goals rw [(hunlinks _ _).reported]
  all_goals decide +kernel

end Shelf
end SchemaShift

import SchemaShift.Proofs.LinkGraph
import SchemaShift.Proofs.Multimap
import SchemaShift.Proofs.NodeChains
import Mathlib.Logic.Function.Basic

/-! Graphs in a pool are ordered multimaps.

`LinkGraph.Refines` says that the chains of a graph hold the lists of a multimap,
each in nodes of its own. An operation of the graph leaves it so, for the
multimap after the same operation, and touches no node in use that is not its own
(`LinkGraph.Steps`): it takes nodes out of its chains and adds nodes that nothing
used. -/
namespace SchemaShift
namespace LinkGraph

variable {α : Type}

/-! ### Nodes of one's own -/

/-- The nodes of the chains of a graph. -/
def Owned (chain : α → List (NodeId × α)) (id : NodeId) : Prop := ∃ a, id ∈ (chain a).map Prod.fst

/-- What a change of one graph does to the pool: nothing happens to handles that are not its own
before or after, it takes up only handles out of use, and those it gives up are out of use. -/
structure Frame (p p' : NodePool α) (own own' : NodeId → Prop) : Prop where
  untouched : ∀ id, ¬ own id → ¬ own' id → p'.get? id = p.get? id
  fresh : ∀ id, own' id → own id ∨ p.get? id = none
  released : ∀ id, own id → ¬ own' id → p'.get? id = none

theorem Frame.refl (p : NodePool α) (own : NodeId → Prop) : Frame p p own own where
  untouched _ _ _ := rfl
  fresh _ := .inl
  released _ hown hown' := absurd hown hown'

theorem Frame.trans {p p' p'' : NodePool α} {own own' own'' : NodeId → Prop} (h : Frame p p' own own')
    (h' : Frame p' p'' own' own'') : Frame p p'' own own'' where
  untouched id hown hown'' := by
    by_cases hown' : own' id
    · rw [h'.released id hown' hown'', (h.fresh id hown').resolve_left hown]
    · rw [h'.untouched id hown' hown'', h.untouched id hown hown']
  fresh id hown'' := by
    by_cases hown : own id
    · exact .inl hown
    · by_cases hown' : own' id
      · exact h.fresh id hown'
      · have hnone := (h'.fresh id hown'').resolve_left hown'
        exact .inr ((h.untouched id hown hown').symm.trans hnone)
  released id hown hown'' := by
    by_cases hown' : own' id
    · exact h'.released id hown' hown''
    · rw [h'.untouched id hown' hown'', h.released id hown hown']

/-- The nodes stay with the graph. -/
theorem Frame.of_same {p p' : NodePool α} {own own' : NodeId → Prop} (hsame : ∀ id, own' id ↔ own id)
    (huntouched : ∀ id, ¬ own id → p'.get? id = p.get? id) : Frame p p' own own' where
  untouched id hown _ := huntouched id hown
  fresh id hown' := .inl ((hsame id).mp hown')
  released id hown hown' := absurd ((hsame id).mpr hown) hown'

/-- Nodes that others have meanwhile do not matter. -/
theorem Frame.beside {p p' : NodePool α} {own own' : NodeId → Prop} (h : Frame p p' own own') (rest : NodeId → Prop) :
    Frame p p' (fun id => own id ∨ rest id) fun id => own' id ∨ rest id where
  untouched id hown hown' := h.untouched id (fun h => hown (.inl h)) fun h => hown' (.inl h)
  fresh id hown' := by
    rcases hown' with hown' | hrest
    · exact (h.fresh id hown').imp_left .inl
    · exact .inl (.inr hrest)
  released id hown hown' := by
    rcases hown with hown | hrest
    · exact h.released id hown fun h => hown' (.inl h)
    · exact absurd (.inr hrest) hown'

variable [DecidableEq α] [Ord α]

/-- The chains of the graph hold the lists of the multimap, in nodes that they share with nothing. -/
structure Refines (g : LinkGraph α) (p : NodePool α) (chain : α → List (NodeId × α)) (m : Multimap α) :
    Prop where
  ordered : g.Ordered
  pool : p.Valid
  linked : ∀ a, p.Linked (g.firstEdge? a) (chain a)
  nodup : ∀ a, ((chain a).map Prod.fst).Nodup
  apart : ∀ {a b id}, id ∈ (chain a).map Prod.fst → id ∈ (chain b).map Prod.fst → a = b
  lists : ∀ a, m[a]? = (g.head? a).map fun _ => (chain a).map Prod.snd

/-- The graph and the pool afterwards hold the multimap `m`, and nothing but the nodes in `own` was
touched. -/
def Steps (own : NodeId → Prop) (p : NodePool α) (after : LinkGraph α × NodePool α) (m : Multimap α) : Prop :=
  ∃ chain, Refines after.1 after.2 chain m ∧ Frame p after.2 own (Owned chain)

variable {g g' : LinkGraph α} {p p' : NodePool α} {chain : α → List (NodeId × α)} {m m' : Multimap α}

theorem refines_empty [Std.TransOrd α] (h : p.Valid) : Refines ({} : LinkGraph α) p (fun _ => []) ∅ :=
  ⟨List.Pairwise.nil, h, fun _ => rfl, fun _ => List.nodup_nil, fun hid => absurd hid List.not_mem_nil,
    fun _ => Std.TreeMap.getElem?_emptyc⟩

theorem Refines.stay (h : Refines g p chain m) : Steps (Owned chain) p (g, p) m := ⟨chain, h, .refl p _⟩

theorem Frame.steps {own own' : NodeId → Prop} {after : LinkGraph α × NodePool α} (hframe : Frame p p' own own')
    (h : Steps own' p' after m) : Steps own p after m := by
  obtain ⟨chain, hrefines, hframe'⟩ := h
  exact ⟨chain, hrefines, hframe.trans hframe'⟩

/-- One change after the other. -/
theorem Steps.bind {own : NodeId → Prop} {after after' : LinkGraph α × NodePool α}
    (h : Steps own p after m)
    (hnext : ∀ chain, Refines after.1 after.2 chain m → Steps (Owned chain) after.2 after' m') :
    Steps own p after' m' := by
  obtain ⟨chain, hrefines, hframe⟩ := h
  exact hframe.steps (hnext chain hrefines)

/-- Another multimap with the same look-ups. -/
theorem Steps.congr {own : NodeId → Prop} {after : LinkGraph α × NodePool α} (h : Steps own p after m)
    (hsame : ∀ a : α, m'[a]? = m[a]?) : Steps own p after m' := by
  obtain ⟨chain, hrefines, hframe⟩ := h
  refine ⟨chain, ?_, hframe⟩
  exact ⟨hrefines.ordered, hrefines.pool, hrefines.linked, hrefines.nodup, hrefines.apart,
    fun a => (hsame a).trans (hrefines.lists a)⟩

namespace Refines

theorem in_use (h : Refines g p chain m) {a : α} {id : NodeId} (hid : id ∈ (chain a).map Prod.fst) :
    p.get? id ≠ none := by
  obtain ⟨entry, hentry, rfl⟩ := List.mem_map.mp hid
  exact (h.linked a).in_use entry hentry

/-- **A change somewhere else in the pool** leaves the graph as it is, and takes up none of its nodes. -/
theorem beside (h : Refines g p chain m) {own own' : NodeId → Prop} (hframe : Frame p p' own own') (hpool : p'.Valid)
    (hapart : ∀ id, Owned chain id → ¬ own id) :
    Refines g p' chain m ∧ ∀ id, Owned chain id → ¬ own' id := by
  have hafter : ∀ id, Owned chain id → ¬ own' id := by
    intro id hown hown'
    obtain ⟨a, hid⟩ := hown
    exact (hframe.fresh id hown').elim (hapart id ⟨a, hid⟩) (h.in_use hid)
  refine ⟨{ h with pool := hpool, linked := fun a => (h.linked a).congr fun entry hentry => ?_ }, hafter⟩
  have hown : Owned chain entry.1 := ⟨a, List.mem_map_of_mem hentry⟩
  exact hframe.untouched entry.1 (hapart _ hown) (hafter _ hown)

/-- Without a head there is no chain. -/
theorem chain_eq_nil (h : Refines g p chain m) {a : α} (hhead : g.head? a = none) : chain a = [] := by
  have hlinked := h.linked a
  rw [firstEdge?, hhead, Option.bind_none] at hlinked
  cases hchain : chain a with
  | nil => rfl
  | cons entry rest =>
    rw [hchain] at hlinked
    exact absurd hlinked.1 (by simp)

/-- The list of an object is what hangs on its head. -/
theorem targets (h : Refines g p chain m) (a : α) : m.targets a = (chain a).map Prod.snd := by
  rw [Multimap.targets, h.lists]
  cases hhead : g.head? a with
  | none => rw [h.chain_eq_nil hhead]; rfl
  | some head => rfl

/-- A graph without heads has no nodes. -/
theorem not_owned (h : Refines g p chain m) (hheads : g = {}) (id : NodeId) : ¬ Owned chain id := by
  rintro ⟨a, hid⟩
  rw [h.chain_eq_nil (by rw [hheads]; rfl)] at hid
  exact absurd hid List.not_mem_nil

theorem chain_eq (h : Refines g p chain m) (a : α) : p.chain (g.firstEdge? a) = chain a :=
  NodePool.chain_of_linked (h.linked a) (h.nodup a)

theorem related (h : Refines g p chain m) (a : α) : g.related p a = m.targets a := by
  rw [LinkGraph.related, h.chain_eq, h.targets]

/-- **Hanging other nodes on one object.** No other chain has them, and nothing happens to the nodes of
the other chains. -/
theorem rehang (h : Refines g p chain m) {a : α} {nodes : List (NodeId × α)} (hordered : g'.Ordered)
    (hpool : p'.Valid) (hfirst : ∀ b, b ≠ a → g'.firstEdge? b = g.firstEdge? b)
    (huntouched : ∀ b, b ≠ a → ∀ id ∈ (chain b).map Prod.fst, p'.get? id = p.get? id)
    (hlinked : p'.Linked (g'.firstEdge? a) nodes) (hnodup : (nodes.map Prod.fst).Nodup)
    (hapart : ∀ b, b ≠ a → ∀ id ∈ (chain b).map Prod.fst, id ∉ nodes.map Prod.fst)
    (hself : m'[a]? = (g'.head? a).map fun _ => nodes.map Prod.snd)
    (hothers : ∀ b, b ≠ a → m'[b]? = (g'.head? b).map fun _ => (chain b).map Prod.snd) :
    Refines g' p' (Function.update chain a nodes) m' := by
  refine ⟨hordered, hpool, fun b => ?_, fun b => ?_, ?_, fun b => ?_⟩
  · by_cases hb : b = a
    · subst hb
      rwa [Function.update_self]
    · rw [Function.update_of_ne hb, hfirst b hb]
      exact (h.linked b).congr fun entry hentry => huntouched b hb entry.1 (List.mem_map_of_mem hentry)
  · by_cases hb : b = a
    · subst hb
      rwa [Function.update_self]
    · rw [Function.update_of_ne hb]
      exact h.nodup b
  · intro b c id hb hc
    by_cases hba : b = a <;> by_cases hca : c = a
    · rw [hba, hca]
    · rw [hba, Function.update_self] at hb
      rw [Function.update_of_ne hca] at hc
      exact absurd hb (hapart c hca id hc)
    · rw [hca, Function.update_self] at hc
      rw [Function.update_of_ne hba] at hb
      exact absurd hc (hapart b hba id hb)
    · rw [Function.update_of_ne hba] at hb
      rw [Function.update_of_ne hca] at hc
      exact h.apart hb hc
  · by_cases hb : b = a
    · subst hb
      rwa [Function.update_self]
    · rw [Function.update_of_ne hb]
      exact hothers b hb

/-- Hanging nodes on one object that were its own or out of use, where its other nodes go out of use
and nothing else changes in the pool. -/
theorem steps (h : Refines g p chain m) (a : α) (nodes : List (NodeId × α)) (hordered : g'.Ordered)
    (hpool : p'.Valid) (hfirst : ∀ b, b ≠ a → g'.firstEdge? b = g.firstEdge? b)
    (huntouched : ∀ id, id ∉ (chain a).map Prod.fst → id ∉ nodes.map Prod.fst → p'.get? id = p.get? id)
    (hreleased : ∀ id ∈ (chain a).map Prod.fst, id ∉ nodes.map Prod.fst → p'.get? id = none)
    (hfresh : ∀ id ∈ nodes.map Prod.fst, id ∈ (chain a).map Prod.fst ∨ p.get? id = none)
    (hlinked : p'.Linked (g'.firstEdge? a) nodes) (hnodup : (nodes.map Prod.fst).Nodup)
    (hself : m'[a]? = (g'.head? a).map fun _ => nodes.map Prod.snd)
    (hothers : ∀ b, b ≠ a → m'[b]? = (g'.head? b).map fun _ => (chain b).map Prod.snd) :
    Steps (Owned chain) p (g', p') m' := by
  have hother : ∀ b, b ≠ a → ∀ id ∈ (chain b).map Prod.fst, id ∉ (chain a).map Prod.fst :=
    fun b hb id hid hid' => hb (h.apart hid hid')
  have hapart : ∀ b, b ≠ a → ∀ id ∈ (chain b).map Prod.fst, id ∉ nodes.map Prod.fst := by
    intro b hb id hid hid'
    rcases hfresh id hid' with hown | hnone
    · exact hother b hb id hid hown
    · exact h.in_use hid hnone
  have howned : ∀ id, Owned (Function.update chain a nodes) id ↔
      id ∈ nodes.map Prod.fst ∨ ∃ b, b ≠ a ∧ id ∈ (chain b).map Prod.fst := by
    intro id
    constructor
    · rintro ⟨b, hid⟩
      by_cases hb : b = a
      · rw [hb, Function.update_self] at hid
        exact .inl hid
      · rw [Function.update_of_ne hb] at hid
        exact .inr ⟨b, hb, hid⟩
    · rintro (hid | ⟨b, hb, hid⟩)
      · exact ⟨a, by rwa [Function.update_self]⟩
      · exact ⟨b, by rwa [Function.update_of_ne hb]⟩
  refine ⟨Function.update chain a nodes, h.rehang hordered hpool hfirst (fun b hb id hid => ?_) hlinked
    hnodup hapart hself hothers, ⟨fun id hown hown' => ?_, fun id hown' => ?_, fun id hown hown' => ?_⟩⟩
  · exact huntouched id (hother b hb id hid) (hapart b hb id hid)
  · rw [howned, not_or] at hown'
    exact huntouched id (fun hid => hown ⟨a, hid⟩) hown'.1
  · rcases (howned id).mp hown' with hid | ⟨b, _, hid⟩
    · exact (hfresh id hid).imp_left fun hid => ⟨a, hid⟩
    · exact .inl ⟨b, hid⟩
  · rw [howned, not_or] at hown'
    obtain ⟨b, hid⟩ := hown
    by_cases hb : b = a
    · exact hreleased id (hb ▸ hid) hown'.1
    · exact absurd ⟨b, hb, hid⟩ hown'.2

end Refines
end LinkGraph
end SchemaShift

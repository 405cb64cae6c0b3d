import SchemaShift.NodePool
import Mathlib.Data.List.Nodup
import Mathlib.Data.List.Perm.Subperm

/-! Pools and the chains in them.

A pool whose freed handles are out of use hands out a handle that nothing else
uses (`NodePool.alloc_spec`). `NodePool.Linked` says that a chain holds these
nodes; it is not disturbed by what happens to other handles, and following the
chain finds exactly its nodes (`NodePool.chain_of_linked`). -/
namespace SchemaShift
namespace NodePool

variable {α : Type} {p p' : NodePool α}

/-- Freed handles were issued and are out of use, and none is listed twice. -/
structure Valid (p : NodePool α) : Prop where
  freed : ∀ id ∈ p.free, id.index < p.nodes.length ∧ p.get? id = none
  nodup : p.free.Nodup

theorem toNat_chunkSize (n : UInt64) : (ofChunkSize n : NodePool α).chunkSize.toNat = max n.toNat 1 := by
  show (if n ≤ 1 then 1 else n).toNat = max n.toNat 1
  split
  · next hle =>
    exact (Nat.max_eq_right (UInt64.le_iff_toNat_le.mp hle)).symm
  · next hgt =>
    exact (Nat.max_eq_left (Nat.le_of_lt (Nat.lt_of_not_le fun hle => hgt (UInt64.le_iff_toNat_le.mpr hle)))).symm

theorem valid_ofChunkSize (n : UInt64) : (ofChunkSize n : NodePool α).Valid :=
  ⟨fun _ h => absurd h List.not_mem_nil, List.nodup_nil⟩

/-- A handle in use was issued. -/
theorem lt_length_of_get? {id : NodeId} {node : Node α} (h : p.get? id = some node) :
    id.index < p.nodes.length := by
  by_contra hge
  rw [get?, List.getElem?_eq_none (Nat.le_of_not_lt hge)] at h
  simp at h

/-- What handing out a handle does to a pool. -/
structure Allocated (p p' : NodePool α) (id : NodeId) (node : Node α) : Prop where
  fresh : p.get? id = none
  held : p'.get? id = some node
  others : ∀ other, other ≠ id → p'.get? other = p.get? other

theorem alloc_spec (h : p.Valid) (object : α) (next : Option NodeId) :
    Allocated p (p.alloc object next).2 (p.alloc object next).1 ⟨object, next⟩ ∧
      (p.alloc object next).2.Valid := by
  have hindex : ∀ {a b : NodeId}, a ≠ b → a.index ≠ b.index := fun hne heq =>
    hne (by rwa [NodeId.mk.injEq])
  unfold alloc
  cases hfree : p.free with
  | nil =>
    refine ⟨⟨?_, ?_, fun other hother => ?_⟩, fun id hid => ?_, ?_⟩
    · simp [get?]
    · simp [get?]
    · have hne : other.index ≠ p.nodes.length := hindex hother
      simp only [get?, List.getElem?_append, List.getElem?_singleton]
      split
      · rfl
      · next hge =>
        rw [List.getElem?_eq_none (Nat.le_of_not_lt hge), if_neg (by omega)]
    · simp at hid
    · simp
  | cons id free =>
    obtain ⟨hlt, hnone⟩ := h.freed id (by simp [hfree])
    have hnodup := h.nodup
    rw [hfree, List.nodup_cons] at hnodup
    have hothers : ∀ other : NodeId, other ≠ id →
        get? { p with nodes := p.nodes.set id.index (some ⟨object, next⟩), free } other = p.get? other := by
      intro other hother
      simp [get?, List.getElem?_set_ne (hindex hother).symm]
    refine ⟨⟨hnone, ?_, hothers⟩, fun other hmem => ?_, hnodup.2⟩
    · simp [get?, hlt]
    · have hne : other ≠ id := fun heq => hnodup.1 (heq ▸ hmem)
      obtain ⟨hlt', hnone'⟩ := h.freed other (by simp [hfree, hmem])
      exact ⟨by simpa using hlt', (hothers other hne).trans hnone'⟩

/-! ### Chains -/

/-- From `start` on the chain holds these objects in these nodes. -/
def Linked (p : NodePool α) : Option NodeId → List (NodeId × α) → Prop
  | start, [] => start = none
  | start, (id, object) :: rest =>
    start = some id ∧ ∃ next, p.get? id = some ⟨object, next⟩ ∧ Linked p next rest

theorem Linked.isSome {start : Option NodeId} {nodes : List (NodeId × α)} (h : p.Linked start nodes) :
    start.isSome = !nodes.isEmpty := by
  cases nodes with
  | nil =>
    obtain rfl : start = none := h
    rfl
  | cons entry rest =>
    obtain ⟨rfl, _⟩ := h
    rfl

theorem Linked.in_use {start : Option NodeId} {nodes : List (NodeId × α)} (h : p.Linked start nodes) :
    ∀ entry ∈ nodes, p.get? entry.1 ≠ none := by
  induction nodes generalizing start with
  | nil => simp
  | cons entry rest ih =>
    obtain ⟨_, next, hget, hrest⟩ := h
    intro other hother
    rcases List.mem_cons.mp hother with rfl | hother
    · simp [hget]
    · exact ih hrest other hother

theorem Linked.congr {start : Option NodeId} {nodes : List (NodeId × α)} (h : p.Linked start nodes)
    (hsame : ∀ entry ∈ nodes, p'.get? entry.1 = p.get? entry.1) : p'.Linked start nodes := by
  induction nodes generalizing start with
  | nil => exact h
  | cons entry rest ih =>
    obtain ⟨hstart, next, hget, hrest⟩ := h
    refine ⟨hstart, next, (hsame entry List.mem_cons_self).trans hget, ih hrest fun other hother => ?_⟩
    exact hsame other (List.mem_cons_of_mem entry hother)

/-- Handing out a handle disturbs no chain. -/
theorem Linked.alloc {start : Option NodeId} {nodes : List (NodeId × α)} {id : NodeId} {node : Node α}
    (h : p.Linked start nodes) (ha : Allocated p p' id node) : p'.Linked start nodes := by
  refine h.congr fun entry hentry => ha.others entry.1 fun heq => h.in_use entry hentry ?_
  rw [heq]
  exact ha.fresh

theorem Linked.walk {start : Option NodeId} {nodes : List (NodeId × α)} {limit : Nat}
    (h : p.Linked start nodes) (hlimit : nodes.length ≤ limit) : p.walk limit start = nodes := by
  induction nodes generalizing start limit with
  | nil =>
    obtain rfl : start = none := h
    cases limit <;> rfl
  | cons entry rest ih =>
    obtain ⟨rfl, next, hget, hrest⟩ := h
    cases limit with
    | zero => simp at hlimit
    | succ limit =>
      have hwalk := ih hrest (Nat.le_of_succ_le_succ hlimit)
      simp only [NodePool.walk, hget, hwalk]

/-- Handles that are all in use and different are no more than the pool has nodes. -/
theorem length_le_of_in_use {ids : List NodeId} (hnodup : ids.Nodup)
    (h : ∀ id ∈ ids, p.get? id ≠ none) : ids.length ≤ p.nodes.length := by
  have hindex : Function.Injective NodeId.index := fun a b hab => by rwa [NodeId.mk.injEq]
  have hsub : ids.map NodeId.index ⊆ List.range p.nodes.length := by
    intro i hi
    obtain ⟨id, hid, rfl⟩ := List.mem_map.mp hi
    obtain ⟨node, hnode⟩ := Option.ne_none_iff_exists'.mp (h id hid)
    exact List.mem_range.mpr (lt_length_of_get? hnode)
  have hle := (List.subperm_of_subset (hnodup.map hindex) hsub).length_le
  simpa using hle

theorem Linked.length_le {start : Option NodeId} {nodes : List (NodeId × α)} (h : p.Linked start nodes)
    (hnodup : (nodes.map Prod.fst).Nodup) : nodes.length ≤ p.nodes.length := by
  have hle := length_le_of_in_use (p := p) hnodup fun id hid => by
    obtain ⟨entry, hentry, rfl⟩ := List.mem_map.mp hid
    exact h.in_use entry hentry
  rwa [List.length_map] at hle

/-- **Following a chain finds its nodes.** -/
theorem chain_of_linked {start : Option NodeId} {nodes : List (NodeId × α)}
    (h : p.Linked start nodes) (hnodup : (nodes.map Prod.fst).Nodup) : p.chain start = nodes :=
  h.walk (h.length_le hnodup)

end NodePool
end SchemaShift

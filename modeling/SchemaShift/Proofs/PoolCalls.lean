import SchemaShift.Proofs.NodeChains
import Std.Data.TreeMap.Lemmas

/-! A pool is a finite map.

Calls are made on a pool with any handles, in use or not. What they may answer is
said on a map from handles to nodes (`PoolCall.Answers`): a handle that is handed
out is one that is not in the map, and a handle that is not in the map changes
nothing. A pool answers so (`NodePool.Holds.step`), and the handles that it has
issued are as many as the map had entries at most (`NodePool.Holds.run`). -/
namespace SchemaShift

/-! ### Calls on a map -/

/-- A call on a pool. -/
inductive PoolCall (α : Type) where
  | alloc (object : α) (next : Option NodeId)
  | release (id : NodeId)
  | modify (id : NodeId) (f : Node α → Node α)

/-- What a call gives back. -/
inductive PoolAnswer (α : Type) where
  /-- The handle handed out. -/
  | handle (id : NodeId)
  /-- The object that was held, if the handle was in use. -/
  | object (object : Option α)
  /-- The node that is changed, if the handle is in use. -/
  | node (node : Option (Node α))
  deriving DecidableEq, Repr

/-- Nodes by the index of their handles. -/
abbrev NodeMap (α : Type) := Std.TreeMap Nat (Node α) compare

namespace NodeMap

variable {α : Type} (m : NodeMap α) (i j : Nat) {node : Node α}

theorem getElem?_put : (m.insert i node)[j]? = if j = i then some node else m[j]? := by
  rw [Std.TreeMap.getElem?_insert]
  simp only [Std.LawfulEqCmp.compare_eq_iff_eq, eq_comm (a := j)]

theorem getElem?_drop : (m.erase i)[j]? = if j = i then none else m[j]? := by
  rw [Std.TreeMap.getElem?_erase]
  simp only [Std.LawfulEqCmp.compare_eq_iff_eq, eq_comm (a := j)]

variable {m i j}

theorem size_put_new (h : m[i]? = none) : (m.insert i node).size = m.size + 1 := by
  rw [Std.TreeMap.size_insert, Std.TreeMap.contains_eq_isSome_getElem?, h]
  rfl

theorem size_put_again {old : Node α} (h : m[i]? = some old) : (m.insert i node).size = m.size := by
  rw [Std.TreeMap.size_insert, Std.TreeMap.contains_eq_isSome_getElem?, h]
  rfl

theorem size_drop (h : m[i]? = some node) : (m.erase i).size + 1 = m.size := by
  have hcontains : m.contains i = true := by
    rw [Std.TreeMap.contains_eq_isSome_getElem?, h]
    rfl
  have hpos : 0 < m.size := by
    rw [← Std.TreeMap.length_keys]
    exact List.length_pos_of_mem (Std.TreeMap.mem_keys.mpr (Std.TreeMap.mem_iff_contains.mpr hcontains))
  rw [Std.TreeMap.size_erase, if_pos hcontains]
  omega

end NodeMap

namespace PoolCall

variable {α : Type}

/-- The answers that a map allows, with what becomes of it. -/
inductive Answers : NodeMap α → PoolCall α → PoolAnswer α → NodeMap α → Prop where
  | alloc {m object next id} : m[id.index]? = none →
      Answers m (alloc object next) (.handle id) (m.insert id.index ⟨object, next⟩)
  | release {m id node} : m[id.index]? = some node →
      Answers m (release id) (.object (some node.object)) (m.erase id.index)
  | releaseStale {m id} : m[id.index]? = none → Answers m (release id) (.object none) m
  | modify {m id f node} : m[id.index]? = some node →
      Answers m (modify id f) (.node (some node)) (m.insert id.index (f node))
  | modifyStale {m id f} : m[id.index]? = none → Answers m (modify id f) (.node none) m

/-- Calls one after the other. The numbers are the most entries that there have been. -/
inductive Runs : NodeMap α → Nat → List (PoolCall α) → List (PoolAnswer α) → NodeMap α → Nat → Prop where
  | nil {m most} : Runs m most [] [] m most
  | cons {m m' m'' most most' call answer rest answers} : Answers m call answer m' →
      Runs m' (max most m'.size) rest answers m'' most' →
        Runs m most (call :: rest) (answer :: answers) m'' most'

/-- Makes calls on whatever answers them. -/
def runWith {σ : Type} (step : σ → PoolCall α → PoolAnswer α × σ) (s : σ) :
    List (PoolCall α) → List (PoolAnswer α) × σ
  | [] => ([], s)
  | call :: rest =>
    let (answer, s) := step s call
    let (answers, s) := runWith step s rest
    (answer :: answers, s)

end PoolCall

/-! ### Calls on a pool -/

namespace NodePool

open PoolCall (Answers Runs runWith)

variable {α : Type} {p : NodePool α} {m : NodeMap α} {most : Nat}

/-- Makes a call on a pool. -/
def answer (p : NodePool α) : PoolCall α → PoolAnswer α × NodePool α
  | .alloc object next => (.handle (p.alloc object next).1, (p.alloc object next).2)
  | .release id => (.object (p.release id).1, (p.release id).2)
  | .modify id f => (.node (p.get? id), p.modify id f)

theorem chunkSize_answer (p : NodePool α) (call : PoolCall α) : (p.answer call).2.chunkSize = p.chunkSize := by
  cases call with
  | alloc object next =>
    show (p.alloc object next).2.chunkSize = _
    unfold alloc
    split
    · rfl
    · rfl
  | release id =>
    show (p.release id).2.chunkSize = _
    unfold release
    split
    · rfl
    · rfl
  | modify id f => rfl

theorem chunkSize_run (p : NodePool α) (script : List (PoolCall α)) :
    (runWith answer p script).2.chunkSize = p.chunkSize := by
  induction script generalizing p with
  | nil => rfl
  | cons call rest ih => exact (ih _).trans (p.chunkSize_answer call)

/-- A handle in use is not listed to be handed out again. -/
theorem Valid.ne_of_free (h : p.Valid) {id other : NodeId} {node : Node α} (hused : p.get? id = some node)
    (hother : other ∈ p.free) : id ≠ other := by
  rintro rfl
  exact Option.some_ne_none node (hused.symm.trans (h.freed id hother).2)

/-- The pool has the nodes of the map, and has issued no more handles than the map had entries once. -/
structure Holds (p : NodePool α) (m : NodeMap α) (most : Nat) : Prop where
  valid : p.Valid
  get? : ∀ id, p.get? id = m[id.index]?
  /-- Every handle that was issued is in use or listed to be handed out again. -/
  issued : p.nodes.length = m.size + p.free.length
  most : p.nodes.length = most

/-- The size of a pool is the number of entries. -/
theorem size_eq_of_get? (h : ∀ id, p.get? id = m[id.index]?) : p.size = m.size := by
  have hindex : Function.Injective NodeId.mk := fun a b hab => NodeId.mk.inj hab
  have hids : ∀ id, id ∈ m.keys.map NodeId.mk ↔ p.get? id ≠ none := by
    intro id
    rw [h, List.mem_map_of_injective hindex (a := id.index), Std.TreeMap.mem_keys, Std.TreeMap.mem_iff_isSome_getElem?,
      Option.isSome_iff_ne_none]
  rw [size_eq_length (m.nodup_keys.map hindex) hids, List.length_map, Std.TreeMap.length_keys]

theorem Holds.size (h : p.Holds m most) : p.size = m.size := size_eq_of_get? h.get?

theorem holds_ofChunkSize (chunkSize : UInt64) : (ofChunkSize chunkSize : NodePool α).Holds ∅ 0 where
  valid := valid_ofChunkSize chunkSize
  get? id := by simp [ofChunkSize, NodePool.get?]
  issued := rfl
  most := rfl

theorem length_alloc (p : NodePool α) (object : α) (next : Option NodeId) :
    (p.alloc object next).2.nodes.length = max p.nodes.length (p.nodes.length + 1 - p.free.length) ∧
      (p.alloc object next).2.free.length = p.free.length - 1 := by
  unfold alloc
  cases p.free with
  | nil => simp
  | cons id free =>
    simp only [List.length_set, List.length_cons]
    omega

/-- **A handle is handed out** that is not in use. -/
theorem Holds.alloc (h : p.Holds m most) (object : α) (next : Option NodeId) :
    m[(p.alloc object next).1.index]? = none ∧
      (p.alloc object next).2.Holds (m.insert (p.alloc object next).1.index ⟨object, next⟩) (max most (m.size + 1)) := by
  obtain ⟨hallocated, hvalid⟩ := alloc_spec h.valid object next
  have hnone := (h.get? _).symm.trans hallocated.fresh
  have hsize : (m.insert (p.alloc object next).1.index ⟨object, next⟩).size = m.size + 1 :=
    NodeMap.size_put_new hnone
  obtain ⟨hnodes, hfree⟩ := p.length_alloc object next
  have hissued := h.issued
  have hmost := h.most
  refine ⟨hnone, hvalid, fun id => ?_, ?_, ?_⟩
  · rw [NodeMap.getElem?_put]
    by_cases hid : id = (p.alloc object next).1
    · rw [if_pos (congrArg NodeId.index hid), hid, hallocated.held]
    · rw [if_neg (index_ne hid), hallocated.others id hid, h.get?]
  · rw [hsize, hnodes, hfree]
    omega
  · rw [hnodes]
    omega

/-- **A handle is taken back** if it is in use. -/
theorem Holds.release (h : p.Holds m most) {id : NodeId} {node : Node α} (hnode : m[id.index]? = some node) :
    (p.release id).1 = some node.object ∧ (p.release id).2.Holds (m.erase id.index) most := by
  have hused : p.get? id = some node := (h.get? id).trans hnode
  have hsize := NodeMap.size_drop hnode
  have hissued := h.issued
  have hvalid := valid_release h.valid id
  have hget := p.get?_release id
  have hrelease : p.release id =
      (some node.object, { p with nodes := p.nodes.set id.index none, free := id :: p.free }) := by
    simp only [NodePool.release, hused]
  rw [hrelease] at hvalid hget ⊢
  refine ⟨rfl, hvalid, fun other => ?_, ?_, ?_⟩
  · rw [hget, NodeMap.getElem?_drop, h.get?]
    by_cases hother : other = id
    · rw [if_pos hother, if_pos (congrArg NodeId.index hother)]
    · rw [if_neg hother, if_neg (index_ne hother)]
  · show (p.nodes.set _ _).length = _ + (id :: p.free).length
    rw [List.length_set, List.length_cons]
    omega
  · show (p.nodes.set _ _).length = _
    rw [List.length_set]
    exact h.most

theorem release_of_get?_none {id : NodeId} (h : p.get? id = none) : p.release id = (none, p) := by
  simp only [NodePool.release, h]

/-- **A node is changed** in its place. -/
theorem Holds.modify (h : p.Holds m most) {id : NodeId} {node : Node α} (hnode : m[id.index]? = some node)
    (f : Node α → Node α) : (p.modify id f).Holds (m.insert id.index (f node)) most where
  valid := valid_modify h.valid id f
  get? other := by
    rw [get?_modify, NodeMap.getElem?_put, h.get?, h.get?, hnode]
    by_cases hother : other = id
    · rw [if_pos hother, if_pos (congrArg NodeId.index hother), Option.map_some]
    · rw [if_neg hother, if_neg (index_ne hother)]
  issued := by
    rw [NodePool.modify, List.length_modify, NodeMap.size_put_again hnode]
    exact h.issued
  most := by
    rw [NodePool.modify, List.length_modify]
    exact h.most

theorem modify_of_get?_none {id : NodeId} (h : p.get? id = none) (f : Node α → Node α) : p.modify id f = p := by
  have hnodes : p.nodes.modify id.index (fun node => node.map f) = p.nodes := by
    refine List.ext_getElem? fun i => ?_
    rw [List.getElem?_modify]
    by_cases hi : id.index = i
    · subst hi
      unfold NodePool.get? at h
      cases hat : p.nodes[id.index]? with
      | none => rfl
      | some node =>
        rw [hat, Option.bind_some] at h
        rw [h]
        simp
    · simp [hi]
  rw [NodePool.modify, hnodes]

/-- **Every call** is answered as the map allows. -/
theorem Holds.step (h : p.Holds m most) (call : PoolCall α) :
    ∃ m', Answers m call (p.answer call).1 m' ∧ (p.answer call).2.Holds m' (max most m'.size) := by
  have hbound : m.size ≤ most := by
    have hissued := h.issued
    have hmost := h.most
    omega
  cases call with
  | alloc object next =>
    obtain ⟨hnone, hafter⟩ := h.alloc object next
    refine ⟨_, .alloc hnone, ?_⟩
    rw [NodeMap.size_put_new hnone]
    exact hafter
  | release id =>
    cases hnode : m[id.index]? with
    | none =>
      rw [answer, release_of_get?_none ((h.get? id).trans hnode)]
      exact ⟨m, .releaseStale hnode, by rwa [Nat.max_eq_left hbound]⟩
    | some node =>
      obtain ⟨hobject, hafter⟩ := h.release hnode
      have hsize := NodeMap.size_drop hnode
      rw [answer, hobject]
      exact ⟨_, .release hnode, by rwa [Nat.max_eq_left (by omega)]⟩
  | modify id f =>
    cases hnode : m[id.index]? with
    | none =>
      have hunused := (h.get? id).trans hnode
      rw [answer, modify_of_get?_none hunused, hunused]
      exact ⟨m, .modifyStale hnode, by rwa [Nat.max_eq_left hbound]⟩
    | some node =>
      rw [answer, (h.get? id).trans hnode]
      refine ⟨_, .modify hnode, ?_⟩
      rw [NodeMap.size_put_again hnode, Nat.max_eq_left hbound]
      exact h.modify hnode f

/-- **A run** is one of the map. -/
theorem Holds.run (h : p.Holds m most) (script : List (PoolCall α)) :
    ∃ m' most', Runs m most script (runWith answer p script).1 m' most' ∧
      (runWith answer p script).2.Holds m' most' := by
  induction script generalizing p m most with
  | nil => exact ⟨m, most, .nil, h⟩
  | cons call rest ih =>
    obtain ⟨m', hanswers, h'⟩ := h.step call
    obtain ⟨m'', most', hruns, h''⟩ := ih h'
    exact ⟨m'', most', .cons hanswers hruns, h''⟩

/-- The pools that calls come to, from an empty one. -/
inductive Reached : NodePool α → Prop where
  | start (chunkSize : UInt64) : Reached (ofChunkSize chunkSize)
  | call {p : NodePool α} (call : PoolCall α) : Reached p → Reached (p.answer call).2

theorem Reached.holds (h : p.Reached) : ∃ m most, p.Holds m most := by
  induction h with
  | start chunkSize => exact ⟨∅, 0, holds_ofChunkSize chunkSize⟩
  | call call _ ih =>
    obtain ⟨m, most, hholds⟩ := ih
    obtain ⟨m', _, hafter⟩ := hholds.step call
    exact ⟨m', _, hafter⟩

theorem Reached.valid (h : p.Reached) : p.Valid :=
  let ⟨_, _, hholds⟩ := h.holds
  hholds.valid

end NodePool
end SchemaShift

import SchemaShift.ChunkStore
import SchemaShift.Proofs.PoolCalls

/-! Chunks and cells behave as a pool.

A store keeps all its chunks full but the last one (`ChunkStore.Packed`), so the
cells stand in one row, and the cells to hand out again form a list that visits
each of them once (`ChunkStore.FreeFrom`). A store that lays out a pool so
(`ChunkStore.Lays`) answers every call as the pool does, hence as a finite map
does, and has as many chunks as the most entries took that the map ever had
(`ChunkStore.refines_map`). -/
namespace SchemaShift
namespace ChunkStore

variable {α : Type}

/-! ### Chunks in a row -/

/-- Every chunk but the last one is full, and none is empty. -/
inductive Packed (n : Nat) : List (List (Cell α)) → Prop where
  | nil : Packed n []
  | last {chunk} : 0 < chunk.length → chunk.length ≤ n → Packed n [chunk]
  | full {chunk rest} : chunk.length = n → Packed n rest → Packed n (chunk :: rest)

variable {n : Nat} {chunks : List (List (Cell α))}

/-- The cell of a number is the one at that place of the row. -/
theorem Packed.cellAt (h : Packed n chunks) (hn : 0 < n) (i : Nat) :
    ChunkStore.cellAt n chunks i = chunks.flatten[i]? := by
  unfold ChunkStore.cellAt
  induction h generalizing i with
  | nil => rfl
  | @last chunk _ hle =>
    rw [List.flatten_singleton]
    by_cases hi : i < n
    · rw [Nat.div_eq_of_lt hi, Nat.mod_eq_of_lt hi]
      rfl
    · have hdiv : 0 < i / n := Nat.div_pos (by omega) hn
      rw [List.getElem?_eq_none (Nat.succ_le_of_lt hdiv), List.getElem?_eq_none (by omega), Option.bind_none]
  | @full chunk rest hlength _ ih =>
    rw [List.flatten_cons, List.getElem?_append]
    by_cases hi : i < n
    · rw [if_pos (by omega), Nat.div_eq_of_lt hi, Nat.mod_eq_of_lt hi]
      rfl
    · rw [if_neg (by omega), hlength, ← ih, Nat.div_eq_sub_div hn (by omega), Nat.mod_eq_sub_mod (by omega),
        List.getElem?_cons_succ]

/-- Writing a cell writes that place of the row. -/
theorem Packed.setCell (h : Packed n chunks) (hn : 0 < n) (i : Nat) (cell : Cell α) :
    Packed n (setCell n chunks i cell) ∧ (setCell n chunks i cell).flatten = chunks.flatten.set i cell := by
  unfold ChunkStore.setCell
  induction h generalizing i with
  | nil =>
    rw [List.modify_nil]
    exact ⟨.nil, rfl⟩
  | @last chunk hpos hle =>
    rw [List.flatten_singleton]
    by_cases hi : i < n
    · rw [Nat.div_eq_of_lt hi, Nat.mod_eq_of_lt hi]
      exact ⟨.last (by rwa [List.length_set]) (by rwa [List.length_set]), by simp⟩
    · have hdiv : 0 < i / n := Nat.div_pos (by omega) hn
      obtain ⟨k, hk⟩ := Nat.exists_eq_succ_of_ne_zero (Nat.ne_of_gt hdiv)
      rw [hk, List.modify_succ_cons, List.modify_nil, List.set_eq_of_length_le (by omega)]
      exact ⟨.last hpos hle, List.flatten_singleton⟩
  | @full chunk rest hlength hrest ih =>
    rw [List.flatten_cons, List.set_append]
    by_cases hi : i < n
    · rw [if_pos (by omega), Nat.div_eq_of_lt hi, Nat.mod_eq_of_lt hi]
      exact ⟨.full (by simpa using hlength) hrest, by simp⟩
    · obtain ⟨hpacked, hflatten⟩ := ih (i - n)
      rw [if_neg (by omega), hlength, ← hflatten, Nat.div_eq_sub_div hn (by omega), Nat.mod_eq_sub_mod (by omega),
        List.modify_succ_cons]
      exact ⟨.full hlength hpacked, by simp⟩

/-- As many chunks as the cells take. -/
theorem Packed.length (h : Packed n chunks) (hn : 0 < n) :
    chunks.length = (chunks.flatten.length + n - 1) / n := by
  induction h with
  | nil =>
    rw [Nat.div_eq_of_lt (by simp; omega)]
    rfl
  | @last chunk hpos hle =>
    rw [List.flatten_singleton]
    have hone : (chunk.length + n - 1) / n = 1 := by
      rw [Nat.div_eq_iff hn]
      omega
    rw [hone]
    rfl
  | @full chunk rest hlength _ ih =>
    have hnext : chunk.length + rest.flatten.length + n - 1 = rest.flatten.length + n - 1 + n := by omega
    rw [List.length_cons, List.flatten_cons, List.length_append, hnext, Nat.add_div_right _ hn, ih]

/-- Full chunks in front leave the chunks packed. -/
theorem Packed.append {front : List (List (Cell α))} (hfront : ∀ chunk ∈ front, chunk.length = n)
    (h : Packed n chunks) : Packed n (front ++ chunks) := by
  induction front with
  | nil => exact h
  | cons chunk front ih =>
    exact .full (hfront chunk List.mem_cons_self) (ih fun other hother => hfront other (List.mem_cons_of_mem chunk hother))

/-- A full chunk in front has no place. -/
theorem withPlace_cons {chunk : List (Cell α)} (h : chunk.length = n) :
    withPlace n (chunk :: chunks) = chunk :: withPlace n chunks := by
  cases chunks with
  | nil => simp [withPlace, h]
  | cons other rest =>
    simp only [withPlace, List.getLast?_cons_cons]
    split
    · rfl
    · rfl

/-- Where there is a place, all chunks in front are full. -/
theorem Packed.withPlace (h : Packed n chunks) (hn : 0 < n) : ∃ front last, withPlace n chunks = front ++ [last] ∧
    (∀ chunk ∈ front, chunk.length = n) ∧ last.length < n ∧ (front ++ [last]).flatten = chunks.flatten := by
  induction h with
  | nil => exact ⟨[], [], rfl, fun _ hmem => absurd hmem List.not_mem_nil, hn, rfl⟩
  | @last chunk _ hle =>
    by_cases hfull : chunk.length = n
    · refine ⟨[chunk], [], withPlace_cons hfull, fun other hother => ?_, hn, by simp⟩
      rwa [List.mem_singleton.mp hother]
    · refine ⟨[], chunk, ?_, fun _ hmem => absurd hmem List.not_mem_nil, by omega, rfl⟩
      simp [ChunkStore.withPlace, hfull]
  | @full chunk rest hlength _ ih =>
    obtain ⟨front, last, hplace, hfront, hlast, hflatten⟩ := ih
    refine ⟨chunk :: front, last, ?_, fun other hother => ?_, hlast, ?_⟩
    · rw [withPlace_cons hlength, hplace, List.cons_append]
    · rcases List.mem_cons.mp hother with rfl | hother
      · exact hlength
      · exact hfront other hother
    · rw [List.cons_append, List.flatten_cons, hflatten, List.flatten_cons]

/-- A row of full chunks. -/
theorem length_flatten_of_full {front : List (List (Cell α))} (h : ∀ chunk ∈ front, chunk.length = n) :
    front.flatten.length = front.length * n := by
  induction front with
  | nil => simp
  | cons chunk front ih =>
    rw [List.flatten_cons, List.length_append, h chunk List.mem_cons_self,
      ih fun other hother => h other (List.mem_cons_of_mem chunk hother), List.length_cons, Nat.succ_mul, Nat.add_comm]

theorem modify_concat {front : List (List (Cell α))} (chunk : List (Cell α)) (f : List (Cell α) → List (Cell α)) :
    (front ++ [chunk]).modify front.length f = front ++ [f chunk] := by
  induction front with
  | nil => rfl
  | cons other front ih => rw [List.cons_append, List.length_cons, List.modify_succ_cons, ih, List.cons_append]

/-- **A cell at the place of the last chunk** stands behind the row. -/
theorem Packed.push (h : Packed n chunks) (hn : 0 < n) (cell : Cell α) {after : List (List (Cell α))} {last : Nat}
    (hafter : after = ChunkStore.withPlace n chunks) (hlast : last = after.length - 1) :
    last * n + (after[last]?.getD []).length = chunks.flatten.length ∧
      Packed n (after.modify last fun chunk => chunk ++ [cell]) ∧
        (after.modify last fun chunk => chunk ++ [cell]).flatten = chunks.flatten ++ [cell] := by
  obtain ⟨front, chunk, hplace, hfront, hroom, hflatten⟩ := h.withPlace hn
  obtain rfl := hafter.trans hplace
  obtain rfl : last = front.length := by simpa using hlast
  rw [modify_concat, ← hflatten]
  refine ⟨?_, ?_, ?_⟩
  · simp [length_flatten_of_full hfront]
  · exact Packed.append hfront (.last (by simp) (by simpa using Nat.succ_le_of_lt hroom))
  · simp

/-! ### The list inside the storage -/

/-- From `head` on the vacant cells of the row lead through these handles. -/
def FreeFrom (cells : List (Cell α)) : Option NodeId → List NodeId → Prop
  | head, [] => head = none
  | head, id :: rest => head = some id ∧ ∃ next, cells[id.index]? = some (.vacant next) ∧ FreeFrom cells next rest

theorem FreeFrom.congr {cells cells' : List (Cell α)} {head : Option NodeId} {ids : List NodeId}
    (h : FreeFrom cells head ids) (hsame : ∀ id ∈ ids, cells'[id.index]? = cells[id.index]?) :
    FreeFrom cells' head ids := by
  induction ids generalizing head with
  | nil => exact h
  | cons id rest ih =>
    obtain ⟨hhead, next, hcell, hrest⟩ := h
    refine ⟨hhead, next, (hsame id List.mem_cons_self).trans hcell, ih hrest fun other hother => ?_⟩
    exact hsame other (List.mem_cons_of_mem id hother)

/-! ### A store lays out a pool -/

/-- The cells of the store stand for the nodes of the pool. -/
structure Lays (s : ChunkStore α) (p : NodePool α) : Prop where
  chunkSize : p.chunkSize = s.chunkSize
  pos : 0 < s.chunkSize.toNat
  packed : Packed s.chunkSize.toNat s.chunks
  nodes : s.chunks.flatten.map Cell.node? = p.nodes
  free : FreeFrom s.chunks.flatten s.freeHead p.free
  inUse : s.inUse = p.size

variable {s : ChunkStore α} {p : NodePool α}

theorem lays_ofChunkSize (chunkSize : UInt64) : (ofChunkSize chunkSize : ChunkStore α).Lays (.ofChunkSize chunkSize) where
  chunkSize := rfl
  pos := (NodePool.toNat_chunkSize (α := α) chunkSize).symm ▸ Nat.le_max_right _ _
  packed := .nil
  nodes := rfl
  free := rfl
  inUse := rfl

theorem Lays.cell? (h : s.Lays p) (id : NodeId) : s.cell? id = s.chunks.flatten[id.index]? :=
  h.packed.cellAt h.pos id.index

/-- The same nodes are in use. -/
theorem Lays.get? (h : s.Lays p) (id : NodeId) : s.get? id = p.get? id := by
  rw [ChunkStore.get?, h.cell?, NodePool.get?, ← h.nodes, List.getElem?_map]
  cases s.chunks.flatten[id.index]? <;> rfl

/-- There are as many chunks. -/
theorem Lays.chunkCount (h : s.Lays p) : s.chunkCount = p.chunks := by
  rw [ChunkStore.chunkCount, h.packed.length h.pos, NodePool.chunks, h.chunkSize, ← h.nodes, List.length_map]

/-! ### Calls -/

theorem cell?_of_get? {id : NodeId} {node : Node α} (h : s.get? id = some node) : s.cell? id = some (.used node) := by
  obtain ⟨cell, hcell, hnode⟩ := Option.bind_eq_some_iff.mp h
  rw [hcell]
  cases cell with
  | used held => exact congrArg (fun node => some (Cell.used node)) (Option.some.inj hnode)
  | vacant next => exact absurd hnode (by simp)

/-- A handle that is not in use leaves the store as it is. -/
theorem release_of_get?_none {id : NodeId} (h : s.get? id = none) : s.release id = (none, s) := by
  unfold ChunkStore.release
  unfold ChunkStore.get? at h
  split
  · next node hcell =>
    rw [hcell] at h
    exact absurd h (by simp)
  · rfl

theorem modify_of_get?_none {id : NodeId} (h : s.get? id = none) (f : Node α → Node α) : s.modify id f = s := by
  unfold ChunkStore.modify
  unfold ChunkStore.get? at h
  split
  · next node hcell =>
    rw [hcell] at h
    exact absurd h (by simp)
  · rfl

variable {m : NodeMap α} {most : Nat}

/-- **The same handle** is handed out. -/
theorem Lays.alloc (h : s.Lays p) (hp : p.Holds m most) (object : α) (next : Option NodeId) :
    (s.alloc object next).1 = (p.alloc object next).1 ∧ (s.alloc object next).2.Lays (p.alloc object next).2 := by
  obtain ⟨hnone, hafter⟩ := hp.alloc object next
  have hsize : (p.alloc object next).2.size = s.inUse + 1 := by
    rw [hafter.size, NodeMap.size_put_new hnone, h.inUse, hp.size]
  have hlist := h.free
  cases hfree : p.free with
  | nil =>
    rw [hfree] at hlist
    have hhead : s.freeHead = none := hlist
    obtain ⟨hindex, hpacked, hflatten⟩ := h.packed.push h.pos (.used ⟨object, next⟩) rfl rfl
    simp only [NodePool.alloc, ChunkStore.alloc, hfree, hhead] at hsize ⊢
    refine ⟨?_, h.chunkSize, h.pos, hpacked, ?_, rfl, hsize.symm⟩
    · rw [hindex, ← h.nodes, List.length_map]
    · rw [hflatten, List.map_append, h.nodes]
      rfl
  | cons id rest =>
    rw [hfree] at hlist
    obtain ⟨hhead, after, hcell, hrest⟩ := hlist
    have hnodup := hp.valid.nodup
    rw [hfree, List.nodup_cons] at hnodup
    obtain ⟨hpacked, hflatten⟩ := h.packed.setCell h.pos id.index (.used ⟨object, next⟩)
    simp only [NodePool.alloc, ChunkStore.alloc, hfree, hhead, h.cell?, hcell] at hsize ⊢
    refine ⟨trivial, h.chunkSize, h.pos, hpacked, ?_, ?_, hsize.symm⟩
    · rw [hflatten, List.map_set, h.nodes]
      rfl
    · rw [hflatten]
      refine hrest.congr fun other hother => List.getElem?_set_ne (NodePool.index_ne ?_)
      exact fun heq => hnodup.1 (heq ▸ hother)

/-- **The same object** is given back. -/
theorem Lays.release (h : s.Lays p) (hp : p.Holds m most) (id : NodeId) :
    (s.release id).1 = (p.release id).1 ∧ (s.release id).2.Lays (p.release id).2 := by
  cases hnode : m[id.index]? with
  | none =>
    have hunused := (hp.get? id).trans hnode
    rw [NodePool.release_of_get?_none hunused, release_of_get?_none ((h.get? id).trans hunused)]
    exact ⟨rfl, h⟩
  | some node =>
    obtain ⟨_, hafter⟩ := hp.release hnode
    have hsize : (p.release id).2.size = s.inUse - 1 := by
      have hdrop := NodeMap.size_drop hnode
      rw [hafter.size, h.inUse, hp.size]
      omega
    have hused := (hp.get? id).trans hnode
    have hcell : s.cell? id = some (.used node) := cell?_of_get? ((h.get? id).trans hused)
    obtain ⟨hpacked, hflatten⟩ := h.packed.setCell h.pos id.index (.vacant s.freeHead)
    simp only [NodePool.release, ChunkStore.release, hused, hcell] at hsize ⊢
    refine ⟨trivial, h.chunkSize, h.pos, hpacked, ?_, ⟨rfl, s.freeHead, ?_, ?_⟩, hsize.symm⟩
    · rw [hflatten, List.map_set, h.nodes]
      rfl
    · rw [hflatten, List.getElem?_set_self']
      rw [h.cell?] at hcell
      rw [hcell]
      rfl
    · rw [hflatten]
      exact h.free.congr fun other hother =>
        List.getElem?_set_ne (NodePool.index_ne (hp.valid.ne_of_free hused hother))

/-- **The same node** is changed. -/
theorem Lays.modify (h : s.Lays p) (hp : p.Holds m most) (id : NodeId) (f : Node α → Node α) :
    (s.modify id f).Lays (p.modify id f) := by
  cases hnode : m[id.index]? with
  | none =>
    have hunused := (hp.get? id).trans hnode
    rw [NodePool.modify_of_get?_none hunused, modify_of_get?_none ((h.get? id).trans hunused)]
    exact h
  | some node =>
    have hsize : (p.modify id f).size = s.inUse := by
      rw [(hp.modify hnode f).size, NodeMap.size_put_again hnode, h.inUse, hp.size]
    have hused := (hp.get? id).trans hnode
    have hcell : s.cell? id = some (.used node) := cell?_of_get? ((h.get? id).trans hused)
    obtain ⟨hpacked, hflatten⟩ := h.packed.setCell h.pos id.index (.used (f node))
    simp only [NodePool.modify, ChunkStore.modify, hcell] at hsize ⊢
    refine ⟨h.chunkSize, h.pos, hpacked, ?_, ?_, hsize.symm⟩
    · rw [h.cell?] at hcell
      rw [hflatten, List.map_set, h.nodes, List.modify_eq_set_getElem?, ← h.nodes, List.getElem?_map, hcell]
      rfl
    · rw [hflatten]
      exact h.free.congr fun other hother =>
        List.getElem?_set_ne (NodePool.index_ne (hp.valid.ne_of_free hused hother))

/-- Makes a call on a store. -/
def answer (s : ChunkStore α) : PoolCall α → PoolAnswer α × ChunkStore α
  | .alloc object next => (.handle (s.alloc object next).1, (s.alloc object next).2)
  | .release id => (.object (s.release id).1, (s.release id).2)
  | .modify id f => (.node (s.get? id), s.modify id f)

/-- **Every call** is answered as the pool does. -/
theorem Lays.step (h : s.Lays p) (hp : p.Holds m most) (call : PoolCall α) :
    (s.answer call).1 = (p.answer call).1 ∧ (s.answer call).2.Lays (p.answer call).2 := by
  cases call with
  | alloc object next =>
    obtain ⟨hhandle, hafter⟩ := h.alloc hp object next
    exact ⟨congrArg PoolAnswer.handle hhandle, hafter⟩
  | release id =>
    obtain ⟨hobject, hafter⟩ := h.release hp id
    exact ⟨congrArg PoolAnswer.object hobject, hafter⟩
  | modify id f => exact ⟨congrArg PoolAnswer.node (h.get? id), h.modify hp id f⟩

open PoolCall (Runs runWith)

/-- A run on the store beside the run on the pool. -/
theorem Lays.run (h : s.Lays p) (hp : p.Holds m most) (script : List (PoolCall α)) :
    (runWith answer s script).1 = (runWith NodePool.answer p script).1 ∧
      (runWith answer s script).2.Lays (runWith NodePool.answer p script).2 := by
  induction script generalizing s p m most with
  | nil => exact ⟨rfl, h⟩
  | cons call rest ih =>
    obtain ⟨m', _, hp'⟩ := hp.step call
    obtain ⟨hanswer, h'⟩ := h.step hp call
    obtain ⟨hanswers, hafter⟩ := ih h' hp'
    exact ⟨congrArg₂ List.cons hanswer hanswers, hafter⟩

/-- What a pool and its storage tell of a map that had `most` entries at most. -/
structure Tells (chunkSize : UInt64) (s : ChunkStore α) (p : NodePool α) (m : NodeMap α) (most : Nat) : Prop where
  get? : ∀ id, s.get? id = m[id.index]? ∧ p.get? id = m[id.index]?
  size : s.size = m.size ∧ p.size = m.size
  chunkCount : s.chunkCount = (most + max chunkSize.toNat 1 - 1) / max chunkSize.toNat 1 ∧ p.chunks = s.chunkCount
  /-- Taking back a handle that is not in use changes nothing at all. -/
  stale : ∀ id, m[id.index]? = none → s.release id = (none, s) ∧ p.release id = (none, p)

/-- **A pool is a finite map**, laid out in chunks. Whatever calls are made, with whatever handles, they are
answered as on a map from handles to nodes, from which the pool and its storage tell the nodes in use and
how many there are. There are as many chunks as the most entries took that there ever were. -/
theorem refines_map (chunkSize : UInt64) (script : List (PoolCall α)) :
    ∃ m most, Runs ∅ 0 script (runWith answer (ofChunkSize chunkSize) script).1 m most ∧
      (runWith NodePool.answer (.ofChunkSize chunkSize) script).1 =
        (runWith answer (ofChunkSize chunkSize) script).1 ∧
      Tells chunkSize (runWith answer (ofChunkSize chunkSize) script).2
        (runWith NodePool.answer (.ofChunkSize chunkSize) script).2 m most := by
  have hp := NodePool.holds_ofChunkSize (α := α) chunkSize
  obtain ⟨hanswers, hlays⟩ := (lays_ofChunkSize chunkSize).run hp script
  obtain ⟨m, most, hruns, hholds⟩ := hp.run script
  refine ⟨m, most, hanswers ▸ hruns, hanswers.symm, fun id => ⟨?_, hholds.get? id⟩, ⟨?_, hholds.size⟩,
    ⟨?_, hlays.chunkCount.symm⟩, fun id hid => ?_⟩
  · rw [hlays.get?, hholds.get?]
  · rw [ChunkStore.size, hlays.inUse, hholds.size]
  · rw [hlays.chunkCount, NodePool.chunks, hholds.most, NodePool.chunkSize_run, NodePool.toNat_chunkSize]
  · have hunused := (hholds.get? id).trans hid
    exact ⟨release_of_get?_none ((hlays.get? id).trans hunused), NodePool.release_of_get?_none hunused⟩

/-- Two cells are taken back, one of them twice, and handed out again before the storage grows. -/
example : (runWith answer (ofChunkSize 2 : ChunkStore Nat)
    [.alloc 1 none, .alloc 2 none, .alloc 3 none, .release ⟨0⟩, .release ⟨1⟩, .release ⟨0⟩, .release ⟨7⟩,
      .alloc 4 (some ⟨2⟩), .alloc 5 none, .alloc 6 none]).1.drop 3 =
    [.object (some 1), .object (some 2), .object none, .object none, .handle ⟨1⟩, .handle ⟨0⟩, .handle ⟨3⟩] := by
  decide

end ChunkStore
end SchemaShift

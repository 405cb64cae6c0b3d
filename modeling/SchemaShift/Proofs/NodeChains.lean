import SchemaShift.Proofs.NodePool

/-! Cutting and joining chains.

Each operation of a pool touches the handles that it is given and no other. A
`NodePool.Segment` is a stretch of a chain that goes on behind it, so that a node
is taken out of a chain (`NodePool.Linked.cut`) or another chain hung behind it
(`NodePool.Linked.join`) by turning one link. -/
namespace SchemaShift
namespace NodePool

variable {α : Type} {p p' : NodePool α}

/-! ### One handle -/

theorem index_ne {a b : NodeId} (h : a ≠ b) : a.index ≠ b.index := fun heq =>
  h (by rwa [NodeId.mk.injEq])

/-- A handle that is taken back is out of use. -/
theorem get?_release (p : NodePool α) (id other : NodeId) :
    (p.release id).2.get? other = if other = id then none else p.get? other := by
  unfold release
  cases hget : p.get? id with
  | none =>
    by_cases hother : other = id
    · rw [if_pos hother, hother, hget]
    · rw [if_neg hother]
  | some node =>
    have hlt := lt_length_of_get? hget
    by_cases hother : other = id
    · subst hother
      simp [get?, hlt]
    · rw [if_neg hother]
      simp [get?, List.getElem?_set_ne (index_ne hother).symm]

theorem valid_release (h : p.Valid) (id : NodeId) : (p.release id).2.Valid := by
  have hget := p.get?_release id
  unfold release at hget ⊢
  cases hused : p.get? id with
  | none => exact h
  | some node =>
    rw [hused] at hget
    refine ⟨fun other hother => ⟨?_, ?_⟩, List.nodup_cons.mpr ⟨fun hmem => ?_, h.nodup⟩⟩
    · rw [List.length_set]
      rcases List.mem_cons.mp hother with rfl | hother
      · exact lt_length_of_get? hused
      · exact (h.freed other hother).1
    · rw [hget]
      rcases List.mem_cons.mp hother with rfl | hother
      · exact if_pos rfl
      · rw [(h.freed other hother).2]
        exact ite_self _
    · exact absurd (hused.symm.trans (h.freed id hmem).2) (by simp)

theorem get?_modify (p : NodePool α) (id other : NodeId) (f : Node α → Node α) :
    (p.modify id f).get? other = if other = id then (p.get? id).map f else p.get? other := by
  rw [modify, get?, List.getElem?_modify]
  by_cases hother : other = id
  · subst hother
    rw [if_pos rfl, get?]
    cases p.nodes[other.index]? with
    | none => rfl
    | some node => simp
  · have hne : id.index ≠ other.index := (index_ne hother).symm
    rw [if_neg hother, get?]
    cases p.nodes[other.index]? with
    | none => rfl
    | some node => simp [hne]

theorem valid_modify (h : p.Valid) (id : NodeId) (f : Node α → Node α) : (p.modify id f).Valid := by
  refine ⟨fun other hother => ?_, h.nodup⟩
  obtain ⟨hlt, hnone⟩ := h.freed other hother
  refine ⟨by rwa [modify, List.length_modify], ?_⟩
  rw [get?_modify]
  split
  · next heq => rw [← heq, hnone, Option.map_none]
  · exact hnone

/-! ### Stretches of a chain -/

/-- From `start` on these nodes follow one another, and `stop` is behind them. -/
def Segment (p : NodePool α) : Option NodeId → List (NodeId × α) → Option NodeId → Prop
  | start, [], stop => start = stop
  | start, (id, object) :: rest, stop =>
    start = some id ∧ ∃ next, p.get? id = some ⟨object, next⟩ ∧ Segment p next rest stop

theorem linked_iff_segment {start : Option NodeId} {nodes : List (NodeId × α)} :
    p.Linked start nodes ↔ p.Segment start nodes none := by
  induction nodes generalizing start with
  | nil => exact Iff.rfl
  | cons entry rest ih =>
    rw [Linked, Segment]
    simp only [ih]

theorem segment_append {start stop : Option NodeId} {front back : List (NodeId × α)} :
    p.Segment start (front ++ back) stop ↔ ∃ mid, p.Segment start front mid ∧ p.Segment mid back stop := by
  induction front generalizing start with
  | nil => simp [Segment]
  | cons entry rest ih =>
    simp only [List.cons_append, Segment, ih]
    constructor
    · rintro ⟨hstart, next, hget, mid, hrest, hback⟩
      exact ⟨mid, ⟨hstart, next, hget, hrest⟩, hback⟩
    · rintro ⟨mid, ⟨hstart, next, hget, hrest⟩, hback⟩
      exact ⟨hstart, next, hget, mid, hrest, hback⟩

theorem Segment.congr {start stop : Option NodeId} {nodes : List (NodeId × α)}
    (h : p.Segment start nodes stop) (hsame : ∀ entry ∈ nodes, p'.get? entry.1 = p.get? entry.1) :
    p'.Segment start nodes stop := by
  induction nodes generalizing start with
  | nil => exact h
  | cons entry rest ih =>
    obtain ⟨hstart, next, hget, hrest⟩ := h
    refine ⟨hstart, next, (hsame entry List.mem_cons_self).trans hget, ih hrest fun other hother => ?_⟩
    exact hsame other (List.mem_cons_of_mem entry hother)

/-- The last node of a stretch is linked to something else. -/
theorem Segment.redirect {start stop stop' : Option NodeId} {front : List (NodeId × α)} {id : NodeId}
    {object : α} (h : p.Segment start (front ++ [(id, object)]) stop)
    (hfront : ∀ entry ∈ front, p'.get? entry.1 = p.get? entry.1)
    (hid : p'.get? id = some ⟨object, stop'⟩) : p'.Segment start (front ++ [(id, object)]) stop' := by
  obtain ⟨mid, hbefore, hlast, _⟩ := segment_append.mp h
  exact segment_append.mpr ⟨mid, hbefore.congr hfront, hlast, stop', hid, rfl⟩

/-- The last node of a chain, which is not among those before it. -/
theorem exists_last {nodes : List (NodeId × α)} (hnodup : (nodes.map Prod.fst).Nodup) (hne : nodes ≠ []) :
    ∃ front id object, nodes = front ++ [(id, object)] ∧ ∀ entry ∈ front, entry.1 ≠ id := by
  have hsplit := List.dropLast_append_getLast hne
  refine ⟨nodes.dropLast, (nodes.getLast hne).1, (nodes.getLast hne).2, hsplit.symm, fun entry hentry => ?_⟩
  rw [← hsplit, List.map_append, List.nodup_append] at hnodup
  exact hnodup.2.2 _ (List.mem_map_of_mem hentry) _ (by simp)

/-- **Hanging a chain behind another one** turns the link of the last node. -/
theorem Linked.join {start mid : Option NodeId} {nodes behind : List (NodeId × α)}
    (h : p.Linked start nodes) (hbehind : p.Linked mid behind) (hnodup : (nodes.map Prod.fst).Nodup)
    (hapart : ∀ entry ∈ nodes, ∀ other ∈ behind, entry.1 ≠ other.1) {tail : NodeId}
    (htail : nodes.getLast?.map Prod.fst = some tail) :
    (p.link tail mid).Linked start (nodes ++ behind) := by
  have hne : nodes ≠ [] := by
    rintro rfl
    simp at htail
  obtain ⟨front, id, object, rfl, hfront⟩ := exists_last hnodup hne
  obtain rfl : id = tail := by simpa using htail
  rw [linked_iff_segment] at h hbehind ⊢
  obtain ⟨_, _, _, next, hget, _⟩ := segment_append.mp h
  refine segment_append.mpr ⟨mid, h.redirect (fun entry hentry => ?_) ?_, hbehind.congr fun other hother => ?_⟩
  · rw [link, get?_modify, if_neg (hfront entry hentry)]
  · rw [link, get?_modify, if_pos rfl, hget, Option.map_some]
  · rw [link, get?_modify, if_neg (hapart (id, object) (by simp) other hother).symm]

/-- **Taking a node out of a chain**: the link to it goes to the node behind it. -/
theorem Linked.cut {start : Option NodeId} {front back : List (NodeId × α)} {id : NodeId} {object : α}
    (h : p.Linked start (front ++ (id, object) :: back))
    (hnodup : ((front ++ (id, object) :: back).map Prod.fst).Nodup) :
    match (front.getLast?.map Prod.fst) with
    | none => ((p.release id).2.Linked ((p.get? id).bind Node.next) (front ++ back))
    | some prev =>
      ((p.link prev ((p.get? id).bind Node.next)).release id).2.Linked start (front ++ back) := by
  rw [List.map_append, List.map_cons, List.nodup_append, List.nodup_cons] at hnodup
  obtain ⟨hfrontNodup, ⟨hid, _⟩, hapart⟩ := hnodup
  have hback : ∀ entry ∈ back, entry.1 ≠ id := fun entry hentry heq =>
    hid (List.mem_map.mpr ⟨entry, hentry, heq⟩)
  have hfront : ∀ entry ∈ front, entry.1 ≠ id := fun entry hentry =>
    hapart _ (List.mem_map_of_mem hentry) id List.mem_cons_self
  rw [linked_iff_segment] at h
  obtain ⟨mid, hbefore, hmid, next, hget, hafter⟩ := segment_append.mp h
  rw [hget, Option.bind_some]
  rcases List.eq_nil_or_concat front with rfl | ⟨init, ⟨prev, held⟩, rfl⟩
  · refine linked_iff_segment.mpr (hafter.congr fun entry hentry => ?_)
    rw [get?_release, if_neg (hback entry hentry)]
  · rw [List.concat_eq_append] at *
    rw [List.getLast?_append, List.getLast?_singleton, Option.some_or, Option.map_some]
    obtain ⟨_, _, _, _, hprev, _⟩ := segment_append.mp hbefore
    have hprevId : prev ≠ id := hfront (prev, held) (by simp)
    have hinit : ∀ entry ∈ init, entry.1 ≠ prev := by
      intro entry hentry
      rw [List.map_append, List.nodup_append] at hfrontNodup
      exact hfrontNodup.2.2 _ (List.mem_map_of_mem hentry) prev (by simp)
    refine linked_iff_segment.mpr (segment_append.mpr ⟨next, hbefore.redirect (fun entry hentry => ?_) ?_,
      hafter.congr fun entry hentry => ?_⟩)
    · rw [get?_release, if_neg (hfront entry (by simp [hentry])), link, get?_modify,
        if_neg (hinit entry hentry)]
    · rw [get?_release, if_neg hprevId, link, get?_modify, if_pos rfl, hprev, Option.map_some]
    · have hne : entry.1 ≠ prev := fun heq =>
        hapart prev (by simp) entry.1 (List.mem_cons_of_mem _ (List.mem_map_of_mem hentry)) heq.symm
      rw [get?_release, if_neg (hback entry hentry), link, get?_modify, if_neg hne]

/-! ### Whole chains -/

/-- What taking a chain back does: it gives its objects, and its handles are out of use. -/
structure Released (p : NodePool α) (nodes : List (NodeId × α)) (after : List α × NodePool α) : Prop where
  objects : after.1 = nodes.map Prod.snd
  pool : after.2.Valid
  get? : ∀ other, after.2.get? other = if other ∈ nodes.map Prod.fst then none else p.get? other

theorem releaseUpTo_spec {start : Option NodeId} {nodes : List (NodeId × α)} {limit : Nat}
    (h : p.Linked start nodes) (hnodup : (nodes.map Prod.fst).Nodup) (hlimit : nodes.length ≤ limit)
    (hv : p.Valid) : Released p nodes (p.releaseUpTo limit start) := by
  induction nodes generalizing start limit p with
  | nil =>
    obtain rfl : start = none := h
    cases limit <;> exact ⟨rfl, hv, fun _ => rfl⟩
  | cons entry rest ih =>
    obtain ⟨id, object⟩ := entry
    obtain ⟨rfl, next, hget, hrest⟩ := h
    obtain ⟨hid, hnodup⟩ := List.nodup_cons.mp hnodup
    cases limit with
    | zero => simp at hlimit
    | succ limit =>
      have hlinked : (p.release id).2.Linked next rest := hrest.congr fun entry hentry => by
        have hne : entry.1 ≠ id := fun heq => hid (List.mem_map.mpr ⟨entry, hentry, heq⟩)
        rw [get?_release, if_neg hne]
      have hreleased := ih hlinked hnodup (Nat.le_of_succ_le_succ hlimit) (valid_release hv id)
      simp only [releaseUpTo, hget]
      refine ⟨by rw [hreleased.objects]; rfl, hreleased.pool, fun other => ?_⟩
      rw [hreleased.get?, get?_release]
      by_cases hother : other = id
      · rw [if_pos hother, ite_self, if_pos (by simp [hother])]
      · simp only [List.map_cons, List.mem_cons, hother, false_or, if_false]

theorem releaseChain_spec {start : Option NodeId} {nodes : List (NodeId × α)} (h : p.Linked start nodes)
    (hnodup : (nodes.map Prod.fst).Nodup) (hv : p.Valid) : Released p nodes (p.releaseChain start) :=
  releaseUpTo_spec h hnodup (h.length_le hnodup) hv

/-! ### Counting -/

/-- The handles issued so far. -/
def issued (p : NodePool α) : List NodeId := (List.range p.nodes.length).map NodeId.mk

theorem size_eq_countP (p : NodePool α) : p.size = p.issued.countP fun id => (p.get? id).isSome := by
  have hnodes : p.nodes = p.issued.map p.get? := by
    refine List.ext_getElem? fun i => ?_
    rw [issued, List.map_map, List.getElem?_map]
    by_cases hi : i < p.nodes.length
    · simp [get?, hi]
    · simp [hi]
  rw [size, hnodes, List.countP_map]
  rfl

/-- The size is the number of handles in use. -/
theorem size_eq_length {ids : List NodeId} (hnodup : ids.Nodup) (hids : ∀ id, id ∈ ids ↔ p.get? id ≠ none) :
    p.size = ids.length := by
  rw [size_eq_countP, List.countP_eq_length_filter]
  refine List.Perm.length_eq ((List.perm_ext_iff_of_nodup ?_ hnodup).mpr fun id => ?_)
  · refine List.Nodup.filter _ (List.nodup_range.map fun a b hab => ?_)
    rwa [NodeId.mk.injEq] at hab
  · rw [List.mem_filter, hids, Option.isSome_iff_ne_none, and_iff_right_iff_imp]
    intro hused
    obtain ⟨node, hnode⟩ := Option.ne_none_iff_exists'.mp hused
    exact List.mem_map.mpr ⟨id.index, List.mem_range.mpr (lt_length_of_get? hnode), rfl⟩

/-! ### Other objects in the same nodes -/

/-- Other objects in the nodes of a chain. -/
theorem Linked.relabel {start : Option NodeId} {nodes : List (NodeId × α)} {f : α → α} (h : p.Linked start nodes)
    (hget : ∀ id ∈ nodes.map Prod.fst, p'.get? id = (p.get? id).map fun node => { node with object := f node.object }) :
    p'.Linked start (nodes.map fun entry => (entry.1, f entry.2)) := by
  induction nodes generalizing start with
  | nil => exact h
  | cons entry rest ih =>
    obtain ⟨hstart, next, hfound, hrest⟩ := h
    refine ⟨hstart, next, ?_, ih hrest fun id hid => hget id (List.mem_cons_of_mem _ hid)⟩
    rw [hget entry.1 List.mem_cons_self, hfound]
    rfl

/-! ### Looking for an object -/

variable [DecidableEq α]

theorem matchIn_none {object : α} {nodes : List (NodeId × α)} (h : object ∉ nodes.map Prod.snd)
    (prev : Option NodeId) : matchIn object prev nodes = none := by
  induction nodes generalizing prev with
  | nil => rfl
  | cons entry rest ih =>
    rw [List.map_cons, List.mem_cons, not_or] at h
    rw [matchIn, if_neg (Ne.symm h.1)]
    exact ih h.2 _

theorem matchIn_some {object : α} {front back : List (NodeId × α)} {id : NodeId}
    (h : object ∉ front.map Prod.snd) (prev : Option NodeId) :
    matchIn object prev (front ++ (id, object) :: back) = some ⟨id, (front.getLast?.map Prod.fst).or prev⟩ := by
  induction front generalizing prev with
  | nil => simp [matchIn]
  | cons entry rest ih =>
    rw [List.map_cons, List.mem_cons, not_or] at h
    rw [List.cons_append, matchIn, if_neg (Ne.symm h.1), ih h.2]
    cases rest with
    | nil => rfl
    | cons next rest =>
      rw [List.getLast?_cons_cons, List.getLast?_eq_some_getLast (List.cons_ne_nil next rest)]
      rfl

end NodePool
end SchemaShift

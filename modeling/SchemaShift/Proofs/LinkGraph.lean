import SchemaShift.LinkGraph
import SchemaShift.Proofs.NodePool

/-! Heads of a relation.

With heads in order (`LinkGraph.Ordered`) an object has one head at most, so
seeing to a head for one object (`LinkGraph.firstEdge?_withHead`) and hanging
another chain on it (`LinkGraph.firstEdge?_withFirst`) leave what the other
objects lead to alone. -/
namespace SchemaShift
namespace LinkGraph

variable {α : Type} {g : LinkGraph α}

/-! ### Heads in order -/

section Order
variable [Ord α]

/-- Heads stand in the order of their objects, and no object has two. -/
def Ordered (g : LinkGraph α) : Prop :=
  g.heads.Pairwise fun a b => compare a.object b.object = .lt

theorem ne_of_compare_lt [Std.LawfulEqOrd α] {a b : α} (h : compare a b = .lt) : a ≠ b := by
  rintro rfl
  exact absurd ((Std.ReflCmp.compare_self (a := a)).symm.trans h) (by decide)

theorem mem_insertHead {object : α} {heads : List (Node α)} {head : Node α}
    (h : head ∈ insertHead object heads) : head = { object } ∨ head ∈ heads := by
  induction heads with
  | nil => exact .inl (List.mem_singleton.mp h)
  | cons first rest ih =>
    rw [insertHead] at h
    split at h
    · exact List.mem_cons.mp h
    · exact .inr h
    · rcases List.mem_cons.mp h with rfl | h
      · exact .inr List.mem_cons_self
      · exact (ih h).imp_right (List.mem_cons_of_mem first)

theorem pairwise_insertHead [Std.TransOrd α] (object : α) {heads : List (Node α)}
    (h : heads.Pairwise fun a b => compare a.object b.object = .lt) :
    (insertHead object heads).Pairwise fun a b => compare a.object b.object = .lt := by
  induction heads with
  | nil => exact List.pairwise_singleton _ _
  | cons first rest ih =>
    obtain ⟨hfirst, hrest⟩ := List.pairwise_cons.mp h
    rw [insertHead]
    split
    · next hlt =>
      refine List.pairwise_cons.mpr ⟨fun head hhead => ?_, h⟩
      rcases List.mem_cons.mp hhead with rfl | hhead
      · exact hlt
      · exact Std.TransCmp.lt_trans hlt (hfirst head hhead)
    · exact h
    · next hgt =>
      refine List.pairwise_cons.mpr ⟨fun head hhead => ?_, ih hrest⟩
      rcases mem_insertHead hhead with rfl | hhead
      · exact Std.OrientedCmp.lt_of_gt hgt
      · exact hfirst head hhead

theorem Ordered.withHead [Std.TransOrd α] (h : g.Ordered) (object : α) : (g.withHead object).Ordered :=
  pairwise_insertHead object h

theorem Ordered.withFirst [DecidableEq α] (h : g.Ordered) (object : α) (next : Option NodeId) :
    (g.withFirst object next).Ordered := by
  refine List.pairwise_map.mpr (h.imp fun {a b} hab => ?_)
  split <;> split <;> exact hab

end Order

/-! ### What a head leads to -/

section Edges
variable [DecidableEq α]

theorem head?_withFirst (object source : α) (next : Option NodeId) :
    (g.withFirst object next).head? source = (g.head? source).map fun head =>
      if head.object = object then { head with next } else head := by
  rw [head?, head?, withFirst, List.find?_map]
  congr 2
  funext head
  simp only [Function.comp_apply]
  split <;> rfl

theorem head?_withoutHead (object source : α) :
    (g.withoutHead object).head? source = if source = object then none else g.head? source := by
  rw [head?, head?, withoutHead, List.find?_filter]
  split
  · next hsource =>
    subst hsource
    rw [List.find?_eq_none]
    intro head hhead
    simp
  · next hsource =>
    congr 1
    funext head
    by_cases hobject : head.object = source
    · have hne : ¬ head.object = object := fun heq => hsource (hobject.symm.trans heq)
      simp [hobject, hsource]
    · simp [hobject]

/-- A head leads to its chain. -/
theorem firstEdge?_of_head? {object : α} {head : Node α} (h : g.head? object = some head) :
    g.firstEdge? object = head.next := by
  rw [firstEdge?, h, Option.bind_some]

theorem firstEdge?_withFirst (object source : α) (next : Option NodeId) :
    (g.withFirst object next).firstEdge? source =
      if object = source ∧ g.head? object ≠ none then next else g.firstEdge? source := by
  rw [firstEdge?, firstEdge?, head?_withFirst]
  cases hhead : g.head? source with
  | none =>
    by_cases hsource : object = source
    · subst hsource
      simp [hhead]
    · simp [hsource]
  | some head =>
    have hobject : head.object = source := by simpa using List.find?_some hhead
    by_cases hsource : object = source
    · subst hsource
      simp [hhead, hobject]
    · have hne : head.object ≠ object := fun heq => hsource (heq.symm.trans hobject)
      simp [hsource, hne]

theorem firstEdge?_withFirst_self {object : α} (h : g.head? object ≠ none) (next : Option NodeId) :
    (g.withFirst object next).firstEdge? object = next := by
  rw [firstEdge?_withFirst, if_pos ⟨rfl, h⟩]

theorem firstEdge?_withFirst_ne {object source : α} (h : source ≠ object) (next : Option NodeId) :
    (g.withFirst object next).firstEdge? source = g.firstEdge? source := by
  rw [firstEdge?_withFirst, if_neg fun hboth => h hboth.1.symm]

variable [Ord α] [Std.TransOrd α] [Std.LawfulEqOrd α]

/-- The head of an object stays as it was, and is a bare one where there was none. -/
theorem find?_insertHead (object source : α) {heads : List (Node α)}
    (h : heads.Pairwise fun a b => compare a.object b.object = .lt) :
    (insertHead object heads).find? (fun head => head.object = source) =
      (heads.find? fun head => head.object = source).or
        (if object = source then some { object } else none) := by
  induction heads with
  | nil => by_cases hsource : object = source <;> simp [insertHead, hsource]
  | cons first rest ih =>
    obtain ⟨hfirst, hrest⟩ := List.pairwise_cons.mp h
    rw [insertHead]
    split
    · next hlt =>
      by_cases hsource : object = source
      · subst hsource
        have hnone : (first :: rest).find? (fun head => head.object = object) = none := by
          rw [List.find?_eq_none]
          intro head hhead
          rcases List.mem_cons.mp hhead with rfl | hhead
          · simpa using (ne_of_compare_lt hlt).symm
          · simpa using (ne_of_compare_lt (Std.TransCmp.lt_trans hlt (hfirst head hhead))).symm
        rw [hnone]
        simp
      · simp [hsource]
    · next heq =>
      obtain rfl := Std.LawfulEqCmp.eq_of_compare heq
      by_cases hsource : first.object = source
      · simp [hsource]
      · simp [hsource]
    · by_cases hsource : first.object = source
      · simp [hsource]
      · simp only [List.find?_cons, hsource, decide_false]
        exact ih hrest

theorem head?_withHead (h : g.Ordered) (object source : α) : (g.withHead object).head? source =
    (g.head? source).or (if object = source then some { object } else none) :=
  find?_insertHead object source h

theorem head?_withHead_self (h : g.Ordered) (object : α) : (g.withHead object).head? object ≠ none := by
  rw [head?_withHead h, if_pos rfl]
  cases g.head? object <;> simp

theorem firstEdge?_withHead (h : g.Ordered) (object source : α) :
    (g.withHead object).firstEdge? source = g.firstEdge? source := by
  rw [firstEdge?, firstEdge?, head?_withHead h]
  cases g.head? source with
  | some head => rfl
  | none => by_cases hsource : object = source <;> simp [hsource]

omit [Std.TransOrd α] in
/-- In an ordered graph a head is the one that its object finds. -/
theorem head?_eq_some (h : g.Ordered) {object : α} {head : Node α} :
    g.head? object = some head ↔ head ∈ g.heads ∧ head.object = object := by
  constructor
  · intro hfind
    exact ⟨List.mem_of_find?_eq_some hfind, by simpa using List.find?_some hfind⟩
  · rintro ⟨hmem, rfl⟩
    obtain ⟨front, back, hsplit⟩ := List.append_of_mem hmem
    have hfront : ∀ other ∈ front, other.object ≠ head.object := by
      intro other hother
      rw [Ordered, hsplit, List.pairwise_append] at h
      exact ne_of_compare_lt (h.2.2 other hother head List.mem_cons_self)
    rw [head?, hsplit, List.find?_append, List.find?_cons_of_pos (by simp), List.find?_eq_none.mpr, Option.none_or]
    intro other hother
    simpa using hfront other hother

omit [Std.TransOrd α] in
theorem head?_removeEmpty (h : g.Ordered) (object : α) :
    g.removeEmpty.head? object = (g.head? object).filter fun head => head.next.isSome := by
  have hordered : g.removeEmpty.Ordered := h.filter _
  apply Option.ext
  intro head
  rw [head?_eq_some hordered, Option.filter_eq_some_iff, head?_eq_some h, removeEmpty, List.mem_filter]
  constructor
  · rintro ⟨⟨hmem, hnext⟩, hobject⟩
    exact ⟨⟨hmem, hobject⟩, hnext⟩
  · rintro ⟨⟨hmem, hobject⟩, hnext⟩
    exact ⟨⟨hmem, hnext⟩, hobject⟩

end Edges

end LinkGraph
end SchemaShift

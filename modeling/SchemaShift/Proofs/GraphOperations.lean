import SchemaShift.Proofs.GraphRefinement

/-! What the operations of a graph do to its multimap.

Each operation is made of steps at one object: a head is seen to, a node is hung in
front (`Refines.addEdge`), the first node of an object is cut out (`Refines.unlinkEdge?`),
a chain goes back to the pool (`Refines.release`), gets other objects in its nodes
(`Refines.renameChain`) or goes over to another object (`Refines.move`). What several
steps do follows by going from one to the next (`Steps.bind`). -/
namespace SchemaShift
namespace LinkGraph

variable {α : Type} [DecidableEq α] [Ord α] [Std.TransOrd α] [Std.LawfulEqOrd α]
  {g g' : LinkGraph α} {p p' : NodePool α} {chain : α → List (NodeId × α)} {m m' : Multimap α}

namespace Refines

/-! ### Adding -/

/-- A head without a chain is a key without targets. -/
theorem withHead (h : Refines g p chain m) (a : α) :
    Refines (g.withHead a) p chain (m.insertIfNew a [] : Multimap α) where
  ordered := h.ordered.withHead a
  pool := h.pool
  linked b := by
    rw [firstEdge?_withHead h.ordered]
    exact h.linked b
  nodup := h.nodup
  apart := h.apart
  lists b := by
    rw [Multimap.getElem?_register, h.lists, head?_withHead h.ordered]
    cases hhead : g.head? b with
    | some head => rfl
    | none =>
      rw [h.chain_eq_nil hhead]
      by_cases hb : a = b <;> simp [hb]

theorem addEdge (h : Refines g p chain m) (a b : α) :
    Steps (Owned chain) p (g.addEdge p a b) (m.prepend a b) := by
  have hhead := h.withHead a
  obtain ⟨halloc, hvalid⟩ := NodePool.alloc_spec h.pool b ((g.withHead a).firstEdge? a)
  have hold := (hhead.linked a).alloc halloc
  have hsome := head?_withHead_self h.ordered a
  rw [LinkGraph.addEdge]
  refine hhead.steps a (((p.alloc b ((g.withHead a).firstEdge? a)).1, b) :: chain a)
    (hhead.ordered.withFirst a _) hvalid ?first ?untouched ?released ?fresh ?linked ?nodup ?self ?others
  case first => exact fun c hc => firstEdge?_withFirst_ne hc _
  case untouched => exact fun id _ hid => halloc.others id fun heq => hid (by simp [heq])
  case released => exact fun id hid hid' => absurd (List.mem_cons_of_mem _ hid) hid'
  case fresh =>
    intro id hid
    rcases List.mem_cons.mp hid with rfl | hid
    · exact .inr halloc.fresh
    · exact .inl hid
  case linked =>
    rw [firstEdge?_withFirst_self hsome]
    exact ⟨rfl, _, halloc.held, hold⟩
  case nodup =>
    refine List.nodup_cons.mpr ⟨fun hid => ?_, h.nodup a⟩
    exact h.in_use hid halloc.fresh
  case self =>
    obtain ⟨head, hfind⟩ := Option.ne_none_iff_exists'.mp hsome
    rw [Multimap.getElem?_prepend, if_pos rfl, h.targets, head?_withFirst, hfind]
    rfl
  case others =>
    intro c hc
    have hlists := hhead.lists c
    rw [Multimap.getElem?_register, if_neg hc.symm, Option.or_none] at hlists
    rw [Multimap.getElem?_prepend, if_neg hc.symm, head?_withFirst, Option.map_map, hlists]
    rfl

theorem add (h : Refines g p chain m) (a : α) (target : Option α) (oneWay : Bool) :
    Steps (Owned chain) p (g.add p a target oneWay) (m.add a target oneWay) := by
  cases target with
  | none => exact (h.withHead a).stay
  | some b =>
    cases oneWay with
    | true => exact h.addEdge a b
    | false => exact (h.addEdge a b).bind fun chain' h' => h'.addEdge b a

/-! ### Taking one edge away -/

omit [DecidableEq α] [Ord α] [Std.TransOrd α] [Std.LawfulEqOrd α] in
/-- Where an object is first found in a list of nodes. -/
theorem exists_first {nodes : List (NodeId × α)} {b : α} (h : b ∈ nodes.map Prod.snd) :
    ∃ front id back, nodes = front ++ (id, b) :: back ∧ b ∉ front.map Prod.snd := by
  obtain ⟨before, after, hsplit, hbefore⟩ := List.eq_append_cons_of_mem h
  obtain ⟨front, tail, rfl, rfl, htail⟩ := List.map_eq_append_iff.mp hsplit
  obtain ⟨⟨id, object⟩, back, rfl, rfl, _⟩ := List.map_eq_cons_iff.mp htail
  exact ⟨front, id, back, rfl, hbefore⟩

omit [DecidableEq α] [Ord α] [Std.TransOrd α] [Std.LawfulEqOrd α] in
theorem map_const_of_isSome {head head' : Option (Node α)} (h : head'.isSome = head.isSome) (list : List α) :
    (head'.map fun _ => list) = head.map fun _ => list := by
  cases head <;> cases head' <;> simp_all

/-- The first node that holds an object is cut out of a chain. -/
theorem cut (h : Refines g p chain m) {a b : α} {front back : List (NodeId × α)} {id : NodeId}
    (hchain : chain a = front ++ (id, b) :: back) (hfront : b ∉ front.map Prod.snd) (hordered : g'.Ordered)
    (hpool : p'.Valid) (hheads : ∀ c, (g'.head? c).isSome = (g.head? c).isSome)
    (hfirst : ∀ c, c ≠ a → g'.firstEdge? c = g.firstEdge? c)
    (hlinked : p'.Linked (g'.firstEdge? a) (front ++ back))
    (hget : ∀ other, other ∉ (front ++ back).map Prod.fst →
      p'.get? other = if other = id then none else p.get? other) :
    Steps (Owned chain) p (g', p') (m.removeFirst a b) := by
  have hids : ∀ other, other ∈ (chain a).map Prod.fst ↔
      other = id ∨ other ∈ (front ++ back).map Prod.fst := by
    intro other
    rw [hchain]
    simp only [List.map_append, List.map_cons, List.mem_append, List.mem_cons]
    tauto
  have hlist : ((chain a).map Prod.snd).erase b = (front ++ back).map Prod.snd := by
    rw [hchain, List.map_append, List.map_cons, List.erase_append_right _ hfront, List.erase_cons_head,
      List.map_append]
  have hsub : (front ++ back).Sublist (chain a) := by
    rw [hchain]
    exact (List.Sublist.refl front).append (List.sublist_cons_self _ back)
  refine h.steps a (front ++ back) hordered hpool hfirst ?untouched ?released
    (fun other hother => .inl ((hids other).mpr (.inr hother))) hlinked ((h.nodup a).sublist (hsub.map _))
    ?self ?others
  case untouched =>
    intro other hother hnot
    rw [hget other hnot, if_neg fun heq => hother ((hids other).mpr (.inl heq))]
  case released =>
    intro other hother hnot
    rw [hget other hnot, if_pos (((hids other).mp hother).resolve_right hnot)]
  case self =>
    rw [Multimap.removeFirst, Multimap.getElem?_modify, if_pos rfl, h.lists, Option.map_map,
      map_const_of_isSome (hheads a)]
    exact congrArg (fun list => (g.head? a).map fun _ => list) hlist
  case others =>
    intro c hc
    rw [Multimap.removeFirst, Multimap.getElem?_modify, if_neg hc.symm, h.lists, map_const_of_isSome (hheads c)]

/-- An edge is found if the list has the target, and the first one goes. -/
theorem unlinkEdge? (h : Refines g p chain m) (a b : α) :
    match g.unlinkEdge? p a b with
    | none => b ∉ m.targets a
    | some after => b ∈ m.targets a ∧ Steps (Owned chain) p after (m.removeFirst a b) := by
  rw [LinkGraph.unlinkEdge?, NodePool.findInChain, h.chain_eq, h.targets]
  by_cases hmem : b ∈ (chain a).map Prod.snd
  case neg =>
    rw [NodePool.matchIn_none hmem]
    exact hmem
  obtain ⟨front, id, back, hchain, hfront⟩ := exists_first hmem
  have hcut := (hchain ▸ h.linked a).cut (hchain ▸ h.nodup a)
  have hhead : g.head? a ≠ none := fun hnone => by
    rw [h.chain_eq_nil hnone] at hmem
    exact absurd hmem List.not_mem_nil
  rw [hchain, NodePool.matchIn_some hfront, Option.or_none, ← hchain]
  refine ⟨hmem, ?_⟩
  -- The link to the node is that of the head or that of the node in front of it.
  rcases List.eq_nil_or_concat front with rfl | ⟨init, ⟨prev, held⟩, rfl⟩
  · refine h.cut hchain hfront (h.ordered.withFirst a _) (NodePool.valid_release h.pool id) (fun c => ?_)
      (fun c hc => firstEdge?_withFirst_ne hc _) ?_ fun other _ => p.get?_release id other
    · rw [head?_withFirst, Option.isSome_map]
    · rw [firstEdge?_withFirst_self hhead]
      exact hcut
  · rw [List.concat_eq_append] at *
    rw [List.getLast?_append, List.getLast?_singleton, Option.some_or, Option.map_some] at hcut ⊢
    refine h.cut hchain hfront h.ordered (NodePool.valid_release (NodePool.valid_modify h.pool prev _) id)
      (fun _ => rfl) (fun _ _ => rfl) hcut fun other hother => ?_
    have hprev : other ≠ prev := fun heq => hother (by simp [heq])
    rw [NodePool.get?_release, NodePool.link, NodePool.get?_modify, if_neg hprev]

theorem unlinkEdge (h : Refines g p chain m) (a b : α) :
    Steps (Owned chain) p (g.unlinkEdge p a b) (m.removeFirst a b) := by
  have hspec := h.unlinkEdge? a b
  rw [LinkGraph.unlinkEdge]
  split at hspec
  · next heq =>
    rw [heq, Option.getD_none]
    exact h.stay.congr fun c => m.getElem?_removeFirst_of_not_mem a b c hspec
  · next after heq =>
    rw [heq, Option.getD_some]
    exact hspec.2

/-! ### Taking edges away one by one -/

theorem unlinkUpTo (h : Refines g p chain m) (a b : α) {limit : Nat} (hlimit : (m.targets a).count b ≤ limit) :
    Steps (Owned chain) p (g.unlinkUpTo p a b limit) (m.removeAll a b) := by
  induction limit generalizing g p chain m with
  | zero =>
    have hnot : b ∉ m.targets a := List.count_eq_zero.mp (Nat.le_zero.mp hlimit)
    exact h.stay.congr fun c => m.getElem?_removeAll_of_not_mem a b c hnot
  | succ limit ih =>
    have hspec := h.unlinkEdge? a b
    rw [LinkGraph.unlinkUpTo]
    cases hedge : g.unlinkEdge? p a b with
    | none =>
      rw [hedge] at hspec
      exact h.stay.congr fun c => m.getElem?_removeAll_of_not_mem a b c hspec
    | some after =>
      rw [hedge] at hspec
      refine (hspec.2.bind fun chain' h' => ih h' ?_).congr fun c =>
        (m.getElem?_removeAll_removeFirst a b c).symm
      have hcount : ((m.removeFirst a b).targets a).count b = (m.targets a).count b - 1 := by
        rw [Multimap.targets, Multimap.removeFirst, Multimap.getElem?_modify, if_pos rfl, Multimap.targets]
        cases m[a]? with
        | none => rfl
        | some list => exact List.count_erase_self
      omega

theorem unlinkAll (h : Refines g p chain m) (a b : α) :
    Steps (Owned chain) p (g.unlinkAll p a b) (m.removeAll a b) := by
  refine h.unlinkUpTo a b ?_
  calc (m.targets a).count b ≤ (m.targets a).length := List.count_le_length
    _ = (chain a).length := by rw [h.targets, List.length_map]
    _ ≤ p.nodes.length := (h.linked a).length_le (h.nodup a)

omit [Std.TransOrd α] [Std.LawfulEqOrd α] in
/-- One step after the other, for the elements of a list. -/
theorem foldl {β : Type} (h : Refines g p chain m) (f : LinkGraph α × NodePool α → β → LinkGraph α × NodePool α)
    (f' : Multimap α → β → Multimap α)
    (hstep : ∀ {g p chain m} (x : β), Refines g p chain m → Steps (Owned chain) p (f (g, p) x) (f' m x))
    (xs : List β) : Steps (Owned chain) p (xs.foldl f (g, p)) (xs.foldl f' m) := by
  induction xs generalizing g p chain m with
  | nil => exact h.stay
  | cons x rest ih => exact (hstep x h).bind fun chain' h' => ih h'

theorem scrub (h : Refines g p chain m) (a : α) :
    Steps (Owned chain) p (g.scrub p a (g.related p a)) (m.unlink a) := by
  have hfold := h.foldl (fun after b => after.1.unlinkAll after.2 b a)
    (fun (m : Multimap α) b => m.removeAll b a) (fun b h => h.unlinkAll b a) (m.targets a)
  rw [h.related]
  exact hfold.congr fun c => m.getElem?_unlink_eq_foldl a c

theorem unmirror (h : Refines g p chain m) (a : α) (sources : List α) : Steps (Owned chain) p
    (g.unmirror p a sources) (sources.foldl (fun (m : Multimap α) b => m.removeFirst b a) m) :=
  h.foldl (fun after b => after.1.unlinkEdge after.2 b a) (fun (m : Multimap α) b => m.removeFirst b a)
    (fun b h => h.unlinkEdge b a) sources

/-! ### Erasing -/

omit [Std.TransOrd α] [Std.LawfulEqOrd α] in
/-- The chain of an object goes back to the pool, where nothing hangs on the object afterwards. -/
theorem release (h : Refines g p chain m) {a : α} (hordered : g'.Ordered) (hnone : g'.firstEdge? a = none)
    (hfirst : ∀ b, b ≠ a → g'.firstEdge? b = g.firstEdge? b) (hself : m'[a]? = (g'.head? a).map fun _ => [])
    (hothers : ∀ b, b ≠ a → m'[b]? = (g'.head? b).map fun _ => (chain b).map Prod.snd) :
    Steps (Owned chain) p (g', (p.releaseChain (g.firstEdge? a)).2) m' := by
  have hreleased := NodePool.releaseChain_spec (h.linked a) (h.nodup a) h.pool
  refine h.steps a [] hordered hreleased.pool hfirst (fun id hid _ => ?_) (fun id hid _ => ?_)
    (fun id hid => absurd hid List.not_mem_nil) hnone List.nodup_nil hself hothers
  · rw [hreleased.get?, if_neg hid]
  · rw [hreleased.get?, if_pos hid]

/-- The chain of an object is let go, with the targets it held. -/
theorem empty (h : Refines g p chain m) (a : α) :
    (p.releaseChain (g.firstEdge? a)).1 = m.targets a ∧
      Steps (Owned chain) p (g.withFirst a none, (p.releaseChain (g.firstEdge? a)).2) (m.empty a) := by
  have hreleased := NodePool.releaseChain_spec (h.linked a) (h.nodup a) h.pool
  refine ⟨by rw [hreleased.objects, h.targets], ?_⟩
  refine h.release (h.ordered.withFirst a none) ?_ (fun b hb => firstEdge?_withFirst_ne hb _) ?_ fun b hb => ?_
  · cases hhead : g.head? a with
    | none => rw [firstEdge?, head?_withFirst, hhead, Option.map_none, Option.bind_none]
    | some head => exact firstEdge?_withFirst_self (by simp [hhead]) none
  · rw [Multimap.empty, Multimap.getElem?_modify, if_pos rfl, h.lists, Option.map_map, head?_withFirst,
      Option.map_map]
    rfl
  · rw [Multimap.empty, Multimap.getElem?_modify, if_neg hb.symm, h.lists, head?_withFirst, Option.map_map]
    rfl

omit [Std.LawfulEqOrd α] in
/-- A key is an object with a head. -/
theorem mem_iff (h : Refines g p chain m) (a : α) : a ∈ m ↔ g.head? a ≠ none := by
  rw [Std.TreeMap.mem_iff_isSome_getElem?, h.lists, Option.isSome_map, Option.isSome_iff_ne_none]

/-- One edge is erased, and in the mode for that the first one back. -/
theorem eraseEdge (h : Refines g p chain m) (a b : α) (mirror : Prop) [Decidable mirror] :
    Steps (Owned chain) p
      (match g.unlinkEdge? p a b with
        | none => (g, p)
        | some after => if mirror then after.1.unlinkEdge after.2 b a else after)
      (if b ∈ m.targets a then
        if mirror then (m.removeFirst a b).removeFirst b a else m.removeFirst a b
      else m) := by
  have hspec := h.unlinkEdge? a b
  cases hedge : g.unlinkEdge? p a b with
  | none =>
    rw [hedge] at hspec
    rw [if_neg hspec]
    exact h.stay
  | some after =>
    rw [hedge] at hspec
    rw [if_pos hspec.1]
    dsimp only
    refine hspec.2.bind fun chain' h' => ?_
    by_cases hmirror : mirror
    · rw [if_pos hmirror, if_pos hmirror]
      exact h'.unlinkEdge b a
    · rw [if_neg hmirror, if_neg hmirror]
      exact h'.stay

/-- The whole list is erased, and in the mode for that one edge back for each of its targets. -/
theorem eraseAll (h : Refines g p chain m) (a : α) (mirror : Prop) [Decidable mirror] :
    Steps (Owned chain) p
      (if mirror then
        (g.withFirst a none).unmirror (p.releaseChain (g.firstEdge? a)).2 a (p.releaseChain (g.firstEdge? a)).1
      else (g.withFirst a none, (p.releaseChain (g.firstEdge? a)).2))
      (if mirror then
        (m.targets a).foldl (fun (m : Multimap α) object => m.removeFirst object a) (m.empty a)
      else m.empty a) := by
  obtain ⟨hobjects, hempty⟩ := h.empty a
  rw [hobjects]
  refine hempty.bind fun chain' h' => ?_
  by_cases hmirror : mirror
  · rw [if_pos hmirror, if_pos hmirror]
    exact h'.unmirror a (m.targets a)
  · rw [if_neg hmirror, if_neg hmirror]
    exact h'.stay

/-- Without a head there is nothing to erase. -/
theorem getElem?_eraseAll_of_not_mem {a : α} (h : a ∉ m) (mirror : Prop) [Decidable mirror] (b : α) :
    (if mirror then (m.targets a).foldl (fun (m : Multimap α) object => m.removeFirst object a) (m.empty a)
      else m.empty a)[b]? = m[b]? := by
  have hnone : m[a]? = none := Std.TreeMap.getElem?_eq_none h
  have hempty : (m.empty a)[b]? = m[b]? := by
    rw [Multimap.empty, Multimap.getElem?_modify]
    split
    · next hb => rw [← hb, hnone, Option.map_none]
    · rfl
  rw [Multimap.targets, hnone, Option.getD_none, List.foldl_nil, ite_self, hempty]

theorem erase (h : Refines g p chain m) (a : α) (target : Option α) (mode : EraseMode) :
    Steps (Owned chain) p ((g.erase p a target mode).1, (g.erase p a target mode).2.1) (m.erase a target mode) ∧
      (g.erase p a target mode).2.2 = m.unlinked a target mode := by
  have hscrub : Steps (Owned chain) p (if mode = .unlink then g.scrub p a (g.related p a) else (g, p))
      (if mode = .unlink then m.unlink a else m) := by
    split
    · exact h.scrub a
    · exact h.stay
  have hkey : a ∈ (if mode = .unlink then m.unlink a else m) ↔ a ∈ m := by
    split
    · exact Std.TreeMap.mem_map
    · rfl
  unfold LinkGraph.erase Multimap.erase Multimap.unlinked
  generalize (if mode = .unlink then g.scrub p a (g.related p a) else (g, p)) = start at hscrub
  generalize (if mode = .unlink then m.unlink a else m) = m₁ at hscrub hkey
  obtain ⟨g₁, p₁⟩ := start
  obtain ⟨chain₁, h₁, hframe⟩ := hscrub
  cases target with
  | some b =>
    have hedge := hframe.steps (h₁.eraseEdge a b (mode = .mirror))
    dsimp only
    cases hfound : g₁.unlinkEdge? p₁ a b <;> rw [hfound] at hedge <;> exact ⟨hedge, by simp⟩
  | none =>
    have hall := hframe.steps (h₁.eraseAll a (mode = .mirror))
    dsimp only
    cases hhead : g₁.head? a with
    | none =>
      have hnot : a ∉ m₁ := fun hmem => (h₁.mem_iff a).mp hmem hhead
      refine ⟨hframe.steps (h₁.stay.congr fun b => getElem?_eraseAll_of_not_mem hnot _ b), (if_neg ?_).symm⟩
      rintro ⟨_, hne | hmem⟩
      · exact hne rfl
      · exact hnot (hkey.mpr hmem)
    | some head =>
      have hmem : a ∈ m := hkey.mp ((h₁.mem_iff a).mpr (by simp [hhead]))
      rw [firstEdge?_of_head? hhead] at hall
      exact ⟨hall, by simp [hmem]⟩

/-! ### Replacing -/

omit [Ord α] [Std.TransOrd α] [Std.LawfulEqOrd α] in
theorem renameNodes_spec (hv : p.Valid) (old new : α) (ids : List NodeId) :
    (renameNodes p old new ids).Valid ∧ ∀ other, (renameNodes p old new ids).get? other =
      if other ∈ ids then (p.get? other).map fun node => { node with object := Multimap.renamed old new node.object }
      else p.get? other := by
  induction ids generalizing p with
  | nil => exact ⟨hv, fun other => rfl⟩
  | cons id rest ih =>
    obtain ⟨hvalid, hget⟩ := ih (NodePool.valid_modify hv id _)
    refine ⟨hvalid, fun other => ?_⟩
    rw [renameNodes, List.foldl_cons]
    refine (hget other).trans ?_
    have hmodify : (p.modify id fun node => if node.object = old then { node with object := new } else node).get? other
        = if other = id then (p.get? id).map fun node =>
            { node with object := Multimap.renamed old new node.object } else p.get? other := by
      rw [NodePool.get?_modify]
      congr 2
      funext node
      unfold Multimap.renamed
      split <;> rfl
    rw [hmodify]
    by_cases hother : other = id
    · subst hother
      cases p.get? other <;> simp [Multimap.renamed_renamed]
    · simp only [hother, if_false, List.mem_cons, false_or]

/-- Another name for the objects on one chain. -/
theorem renameChain (h : Refines g p chain m) (old new a : α) :
    Steps (Owned chain) p (g, renameNodes p old new ((p.chain (g.firstEdge? a)).map Prod.fst))
      (m.modify a (List.map (Multimap.renamed old new))) := by
  rw [h.chain_eq]
  obtain ⟨hvalid, hget⟩ := renameNodes_spec h.pool old new ((chain a).map Prod.fst)
  have hids : ((chain a).map fun entry => (entry.1, Multimap.renamed old new entry.2)).map Prod.fst =
      (chain a).map Prod.fst := by
    rw [List.map_map]
    rfl
  refine h.steps a ((chain a).map fun entry => (entry.1, Multimap.renamed old new entry.2))
    h.ordered hvalid (fun _ _ => rfl) ?untouched ?released ?fresh ?linked ?nodup ?self ?others
  case untouched =>
    intro id hid _
    rw [hget, if_neg hid]
  case released => exact fun id hid hnot => absurd (hids ▸ hid) hnot
  case fresh => exact fun id hid => .inl (hids ▸ hid)
  case linked =>
    apply (h.linked a).relabel
    intro id hid
    rw [hget, if_pos hid]
  case nodup =>
    rw [hids]
    exact h.nodup a
  case self =>
    rw [Multimap.getElem?_modify, if_pos rfl, h.lists, Option.map_map, List.map_map]
    simp only [Function.comp_def, List.map_map]
  case others =>
    intro c hc
    rw [Multimap.getElem?_modify, if_neg hc.symm, h.lists]

/-- The chains of some heads, one after the other. -/
theorem renameHeads (h : Refines g p chain m) (old new : α) {heads : List (Node α)}
    (hsub : ∀ head ∈ heads, head ∈ g.heads) :
    Steps (Owned chain) p
      (g, heads.foldl (fun p head => renameNodes p old new ((p.chain head.next).map Prod.fst)) p)
      (heads.foldl (fun (m : Multimap α) head => m.modify head.object (List.map (Multimap.renamed old new))) m) := by
  induction heads generalizing p chain m with
  | nil => exact h.stay
  | cons head rest ih =>
    have hfind := (head?_eq_some h.ordered).mpr ⟨hsub head List.mem_cons_self, rfl⟩
    have hstep := h.renameChain old new head.object
    rw [firstEdge?_of_head? hfind] at hstep
    exact hstep.bind fun chain' h' => ih h' fun other hother => hsub other (List.mem_cons_of_mem head hother)

theorem renameTargets (h : Refines g p chain m) (old new : α) :
    Steps (Owned chain) p (g, g.renameTargets p old new) (m.rename old new) := by
  refine (h.renameHeads old new fun _ hhead => hhead).congr fun b => ?_
  have hidem : ∀ list : List α, (list.map (Multimap.renamed old new)).map (Multimap.renamed old new) =
      list.map (Multimap.renamed old new) := by
    intro list
    rw [List.map_map]
    congr 1
    funext object
    exact Multimap.renamed_renamed object old new
  rw [← List.foldl_map (f := Node.object) (l := g.heads)
    (g := fun (m : Multimap α) a => m.modify a (List.map (Multimap.renamed old new))),
    Multimap.getElem?_foldl_modify m b hidem, Multimap.getElem?_rename, h.lists]
  cases hhead : g.head? b with
  | none => rfl
  | some head =>
    obtain ⟨hmem, rfl⟩ := (head?_eq_some h.ordered).mp hhead
    rw [Option.map_some, Option.map_some, Option.map_some, if_pos (List.mem_map_of_mem hmem)]

/-- A key goes while its nodes stay in use, for another object to take them over. -/
theorem withoutHead (h : Refines g p chain m) (a : α) :
    Refines (g.withoutHead a) p (Function.update chain a []) (Std.TreeMap.erase m a : Multimap α) := by
  have hfirst : ∀ b, (g.withoutHead a).firstEdge? b = if b = a then none else g.firstEdge? b := by
    intro b
    rw [firstEdge?, head?_withoutHead]
    split <;> rfl
  refine h.rehang (h.ordered.filter _) h.pool (fun b hb => ?_) (fun _ _ _ _ => rfl) ?_ List.nodup_nil
    (fun _ _ _ _ => List.not_mem_nil) ?_ fun b hb => ?_
  · rw [hfirst, if_neg hb]
  · rw [hfirst, if_pos rfl]
    rfl
  · rw [Multimap.getElem?_withoutKey, if_pos rfl, head?_withoutHead, if_pos rfl]
    rfl
  · rw [Multimap.getElem?_withoutKey, if_neg hb.symm, head?_withoutHead, if_neg hb, h.lists]

omit [Ord α] [Std.TransOrd α] [Std.LawfulEqOrd α] in
theorem mem_ids_update {old b : α} {id : NodeId} : id ∈ (Function.update chain old [] b).map Prod.fst ↔
    b ≠ old ∧ id ∈ (chain b).map Prod.fst := by
  by_cases hb : b = old <;> simp [hb]

/-- An object takes over the nodes of another one, which has no head any more. -/
theorem takeOver (h : Refines g p chain m) (old new : α) (hordered : g'.Ordered) (hpool : p'.Valid)
    (hheads : ∀ b, (g'.head? b).isSome = (((g.withoutHead old).withHead new).head? b).isSome)
    (hfirst : ∀ b, b ≠ new → g'.firstEdge? b = ((g.withoutHead old).withHead new).firstEdge? b)
    (huntouched : ∀ id, id ∉ (Function.update chain old [] new).map Prod.fst → p'.get? id = p.get? id)
    (hlinked : p'.Linked (g'.firstEdge? new) (Function.update chain old [] new ++ chain old)) :
    Steps (Owned chain) p (g', p')
      (Multimap.append (Std.TreeMap.erase m old) new ((chain old).map Prod.snd)) := by
  have hgone := h.withoutHead old
  have hnew := hgone.withHead new
  have hsome := head?_withHead_self hgone.ordered new
  have hrest : ∀ {b id}, id ∈ (Function.update chain old [] b).map Prod.fst ↔
      b ≠ old ∧ id ∈ (chain b).map Prod.fst := mem_ids_update
  generalize Function.update chain old [] = chain' at hgone hnew hrest huntouched hlinked
  have hmem : ∀ {id}, id ∈ (chain' new ++ chain old).map Prod.fst ↔
      id ∈ (chain' new).map Prod.fst ∨ id ∈ (chain old).map Prod.fst := by simp
  have hnodup : ((chain' new ++ chain old).map Prod.fst).Nodup := by
    rw [List.map_append, List.nodup_append]
    refine ⟨hnew.nodup new, h.nodup old, fun id hid other hother heq => ?_⟩
    exact (hrest.mp hid).1 (h.apart (hrest.mp hid).2 (heq ▸ hother))
  have hother : ∀ b, b ≠ new → ∀ id ∈ (chain' b).map Prod.fst, id ∉ (chain' new).map Prod.fst :=
    fun b hb id hid hid' => hb (hnew.apart hid hid')
  -- Together the two objects have the nodes that they had before.
  have hsame : ∀ id, Owned (Function.update chain' new (chain' new ++ chain old)) id ↔ Owned chain id := by
    intro id
    constructor
    · rintro ⟨b, hid⟩
      by_cases hb : b = new
      · rw [hb, Function.update_self] at hid
        exact (hmem.mp hid).elim (fun hid => ⟨new, (hrest.mp hid).2⟩) fun hid => ⟨old, hid⟩
      · rw [Function.update_of_ne hb] at hid
        exact ⟨b, (hrest.mp hid).2⟩
    · rintro ⟨b, hid⟩
      by_cases hb : b = old
      · exact ⟨new, by rw [Function.update_self]; exact hmem.mpr (.inr (hb ▸ hid))⟩
      · have hid' := hrest.mpr ⟨hb, hid⟩
        by_cases hbnew : b = new
        · exact ⟨new, by rw [Function.update_self]; exact hmem.mpr (.inl (hbnew ▸ hid'))⟩
        · exact ⟨b, by rwa [Function.update_of_ne hbnew]⟩
  refine ⟨Function.update chain' new (chain' new ++ chain old), hnew.rehang hordered hpool hfirst
    (fun b hb id hid => huntouched id (hother b hb id hid)) hlinked hnodup ?apart ?self ?others,
    .of_same hsame fun id hown => huntouched id fun hid => hown ⟨new, (hrest.mp hid).2⟩⟩
  case apart =>
    intro b hb id hid hid'
    rcases hmem.mp hid' with hid' | hid'
    · exact hother b hb id hid hid'
    · exact (hrest.mp hid).1 (h.apart (hrest.mp hid).2 hid')
  case self =>
    obtain ⟨head, hhead⟩ := Option.ne_none_iff_exists'.mp hsome
    rw [Multimap.getElem?_append, if_pos rfl, hgone.targets, map_const_of_isSome (hheads new), hhead,
      List.map_append]
    rfl
  case others =>
    intro b hb
    have hlists := hnew.lists b
    rw [Multimap.getElem?_register, if_neg hb.symm, Option.or_none] at hlists
    rw [Multimap.getElem?_append, if_neg hb.symm, map_const_of_isSome (hheads b)]
    exact hlists

/-- **Moving a chain** behind that of another object, which may be the same one. -/
theorem move (h : Refines g p chain m) {old : α} {head : Node α} (hhead : g.head? old = some head) (new : α) :
    Steps (Owned chain) p
      (let g := (g.withoutHead old).withHead new
      match g.firstEdge? new with
      | none => (g.withFirst new head.next, p)
      | some first => (g, p.link (((p.chain (some first)).getLast?.map Prod.fst).getD first) head.next))
      (Multimap.append (Std.TreeMap.erase m old) new ((chain old).map Prod.snd)) := by
  have hgone := h.withoutHead old
  have hnew := hgone.withHead new
  have hsome := head?_withHead_self hgone.ordered new
  have hmoved : p.Linked head.next (chain old) := firstEdge?_of_head? hhead ▸ h.linked old
  have hlinked := hnew.linked new
  dsimp only
  cases hedge : ((g.withoutHead old).withHead new).firstEdge? new with
  | none =>
    have hnil : Function.update chain old [] new = [] := by
      rw [hedge] at hlinked
      simpa using hlinked.isSome
    refine h.takeOver old new (hnew.ordered.withFirst new _) h.pool (fun b => ?_)
      (fun b hb => firstEdge?_withFirst_ne hb _) (fun _ _ => rfl) ?_
    · rw [head?_withFirst, Option.isSome_map]
    · rw [firstEdge?_withFirst_self hsome, hnil]
      exact hmoved
  | some first =>
    have hchain := hnew.chain_eq new
    rw [hedge] at hchain hlinked
    obtain ⟨tail, htail⟩ : ∃ tail, (Function.update chain old [] new).getLast? = some tail := by
      rw [← Option.isSome_iff_exists, List.getLast?_isSome]
      intro hnil
      rw [hnil] at hlinked
      exact absurd hlinked (by simp [NodePool.Linked])
    dsimp only
    rw [hchain, htail, Option.map_some, Option.getD_some]
    refine h.takeOver old new hnew.ordered (NodePool.valid_modify h.pool _ _) (fun _ => rfl) (fun _ _ => rfl)
      (fun id hid => ?_) ?_
    · rw [NodePool.link, NodePool.get?_modify, if_neg]
      rintro rfl
      exact hid (List.mem_map_of_mem (List.mem_of_getLast? htail))
    · rw [hedge]
      refine hlinked.join hmoved (hnew.nodup new) (fun entry hentry other hother heq => ?_) (by rw [htail]; rfl)
      obtain ⟨hold, hid⟩ := mem_ids_update.mp (List.mem_map_of_mem (f := Prod.fst) hentry)
      exact hold (h.apart hid (heq ▸ List.mem_map_of_mem (f := Prod.fst) hother))

theorem replace (h : Refines g p chain m) (old new : α) (oneWay : Bool) :
    Steps (Owned chain) p (g.replace p old new oneWay) (m.replace old new oneWay) := by
  refine (h.renameTargets old new).bind fun chain' h' => ?_
  have hold := h'.lists old
  unfold LinkGraph.replace Multimap.replace
  dsimp only
  cases hhead : g.head? old with
  | none =>
    rw [hhead, Option.map_none] at hold
    rw [hold]
    cases oneWay <;> exact h'.stay
  | some head =>
    rw [hhead, Option.map_some] at hold
    rw [hold]
    cases oneWay with
    | false => exact h'.move hhead new
    | true => exact h'.stay

/-! ### Tidying up -/

theorem removeEmpty (h : Refines g p chain m) : Refines g.removeEmpty p chain m.removeEmpty where
  ordered := h.ordered.filter _
  pool := h.pool
  linked a := by
    have hlinked := h.linked a
    rw [firstEdge?] at hlinked ⊢
    rw [head?_removeEmpty h.ordered]
    cases hhead : g.head? a with
    | none => rwa [hhead] at hlinked
    | some head =>
      rw [hhead, Option.bind_some] at hlinked
      cases hnext : head.next with
      | none =>
        rw [hnext] at hlinked
        simpa [Option.filter, hnext] using hlinked
      | some first => simpa [Option.filter, hnext] using hlinked
  nodup := h.nodup
  apart := h.apart
  lists a := by
    have hlinked := h.linked a
    rw [Multimap.getElem?_removeEmpty, h.lists, head?_removeEmpty h.ordered]
    cases hhead : g.head? a with
    | none => rfl
    | some head =>
      have hsome := hlinked.isSome
      rw [firstEdge?_of_head? hhead] at hsome
      cases hchain : chain a <;> simp [Option.filter, hsome, hchain]

/-- The chains of all heads go back to the pool, one after the other. -/
theorem clearHeads {heads : List (Node α)} (h : Refines ⟨heads⟩ p chain m) :
    Steps (Owned chain) p ({}, heads.foldl (fun p head => (p.releaseChain head.next).2) p) ∅ := by
  induction heads generalizing p chain m with
  | nil => exact h.stay.congr fun a => (Std.TreeMap.getElem?_emptyc).trans (h.lists a).symm
  | cons head rest ih =>
    obtain ⟨hhead, hrest⟩ := List.pairwise_cons.mp h.ordered
    have hself : (⟨rest⟩ : LinkGraph α).head? head.object = none := by
      rw [head?, List.find?_eq_none]
      intro other hother
      simpa using (ne_of_compare_lt (hhead other hother)).symm
    have hothers : ∀ b, b ≠ head.object → (⟨rest⟩ : LinkGraph α).head? b = (⟨head :: rest⟩ : LinkGraph α).head? b := by
      intro b hb
      rw [head?, head?, List.find?_cons_of_neg (by simpa using hb.symm)]
    have hfirst : (⟨head :: rest⟩ : LinkGraph α).firstEdge? head.object = head.next :=
      firstEdge?_of_head? (List.find?_cons_of_pos (by simp))
    have hstep : Steps (Owned chain) p (⟨rest⟩, (p.releaseChain head.next).2)
        (Std.TreeMap.erase m head.object : Multimap α) := by
      rw [← hfirst]
      refine h.release hrest ?_ (fun b hb => ?_) ?_ fun b hb => ?_
      · rw [firstEdge?, hself, Option.bind_none]
      · rw [firstEdge?, firstEdge?, hothers b hb]
      · rw [Multimap.getElem?_withoutKey, if_pos rfl, hself, Option.map_none]
      · rw [Multimap.getElem?_withoutKey, if_neg hb.symm, hothers b hb, h.lists]
    exact hstep.bind fun chain' h' => ih h'

theorem clear (h : Refines g p chain m) : Steps (Owned chain) p (g.clear p) ∅ := h.clearHeads

end Refines
end LinkGraph
end SchemaShift

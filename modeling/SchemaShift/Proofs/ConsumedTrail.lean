import SchemaShift.Proofs.FreshNames
import SchemaShift.Proofs.TrailWalk

/-! What an erased trail leaves.

A trail takes the oldest edges of a name, but what is erased for each of them is the
newest edge to the same target. So every name keeps as many edges to each target as
were not followed, in an order of their own, and the nodes of the others go back to
the pool. A name of which a trail has not followed every edge has a history still
(`RenameGraph.consumed_ofEntries`). -/
namespace SchemaShift

/-! ### Handles that go back -/

namespace NodePool

variable {α : Type} {p p' p'' : NodePool α} {ids ids' : List NodeId}

/-- These handles are out of use and listed to be handed out again, and the others stay in use. -/
structure GivenBack (p p' : NodePool α) (ids : List NodeId) : Prop where
  free : p'.free = ids ++ p.free
  used : ∀ id, p'.get? id ≠ none ↔ p.get? id ≠ none ∧ id ∉ ids

theorem GivenBack.refl (p : NodePool α) : GivenBack p p [] := ⟨rfl, fun _ => by simp⟩

theorem GivenBack.trans (h : GivenBack p p' ids) (h' : GivenBack p' p'' ids') : GivenBack p p'' (ids' ++ ids) where
  free := by rw [h'.free, h.free, List.append_assoc]
  used id := by
    rw [h'.used, h.used, List.mem_append, not_or]
    tauto

theorem givenBack_release {id : NodeId} (h : p.get? id ≠ none) : GivenBack p (p.release id).2 [id] := by
  obtain ⟨node, hnode⟩ := Option.ne_none_iff_exists'.mp h
  refine ⟨by simp only [release, hnode]; rfl, fun other => ?_⟩
  rw [get?_release]
  by_cases hother : other = id <;> simp [hother]

theorem givenBack_modify (p : NodePool α) (id : NodeId) (f : Node α → Node α) : GivenBack p (p.modify id f) [] := by
  refine ⟨rfl, fun other => ?_⟩
  rw [get?_modify]
  by_cases hother : other = id <;> simp [hother]

theorem used_of_mem_walk {limit : Nat} {start : Option NodeId} {entry : NodeId × α} (h : entry ∈ p.walk limit start) :
    p.get? entry.1 ≠ none := by
  induction limit generalizing start with
  | zero => exact absurd h List.not_mem_nil
  | succ limit ih =>
    cases start with
    | none => exact absurd h List.not_mem_nil
    | some id =>
      rw [walk] at h
      cases hnode : p.get? id with
      | none =>
        rw [hnode] at h
        exact absurd h List.not_mem_nil
      | some node =>
        rw [hnode] at h
        rcases List.mem_cons.mp h with rfl | h
        · simp [hnode]
        · exact ih h

theorem mem_of_matchIn [DecidableEq α] {object : α} {prev : Option NodeId} {nodes : List (NodeId × α)}
    {found : ChainMatch} (h : matchIn object prev nodes = some found) : found.node ∈ nodes.map Prod.fst := by
  induction nodes generalizing prev with
  | nil => exact absurd h (by simp [matchIn])
  | cons entry rest ih =>
    rw [matchIn] at h
    split at h
    · obtain rfl := Option.some.inj h
      exact List.mem_cons_self
    · exact List.mem_cons_of_mem _ (ih h)

end NodePool

open NodePool (GivenBack)

/-- An edge that is removed gives one handle back. -/
theorem LinkGraph.givenBack_unlinkEdge? {α : Type} [DecidableEq α] {g : LinkGraph α} {p : NodePool α} {a b : α}
    {after : LinkGraph α × NodePool α} (h : g.unlinkEdge? p a b = some after) : ∃ id, GivenBack p after.2 [id] := by
  obtain ⟨found, hfound, rfl⟩ := Option.map_eq_some_iff.mp h
  obtain ⟨entry, hentry, hid⟩ := List.mem_map.mp (NodePool.mem_of_matchIn hfound)
  have hused : p.get? found.node ≠ none := hid ▸ NodePool.used_of_mem_walk hentry
  refine ⟨found.node, ?_⟩
  dsimp only
  cases found.prev with
  | none => exact NodePool.givenBack_release hused
  | some prev =>
    have hlink := NodePool.givenBack_modify p prev fun node => { node with next := (p.get? found.node).bind Node.next }
    exact hlink.trans (NodePool.givenBack_release ((hlink.used _).mpr ⟨hused, List.not_mem_nil⟩))

namespace RenameGraph

open LinkGraph (Owned Steps Refines)

variable {g : RenameGraph} {p : NodePool Fate} {chain : Fate → List (NodeId × Fate)} {m : Multimap Fate}
  {log trail : List (Fate × Fate)} {v : Fate}

/-- Where the edges lead that leave `v`, in order. -/
def targetsOf (v : Fate) (edges : List (Fate × Fate)) : List Fate := (out v edges).map Prod.snd

theorem targetsOf_cons (edge : Fate × Fate) (rest : List (Fate × Fate)) (v : Fate) :
    targetsOf v (edge :: rest) = if edge.1 = v then edge.2 :: targetsOf v rest else targetsOf v rest := by
  unfold targetsOf
  split
  · next hv => rw [← hv, out_cons_self, List.map_cons]
  · next hv => rw [out_cons_ne hv]

/-- The history of a log has the targets of each name, the latest one first. -/
theorem getElem?_recorded (log : List (Fate × Fate)) (v : Fate) :
    (recorded log)[v]? = if targetsOf v log = [] then none else some (targetsOf v log).reverse := by
  induction log using List.reverseRecOn with
  | nil => rfl
  | append_singleton front edge ih =>
    have hconcat : targetsOf v (front ++ [edge]) = targetsOf v front ++ targetsOf v [edge] := by
      rw [targetsOf, out_append, List.map_append]
      rfl
    have hstep : recorded (front ++ [edge]) = (recorded front).prepend edge.1 edge.2 := by
      rw [recorded, List.foldl_append]
      rfl
    have htargets : (recorded front).targets v = (targetsOf v front).reverse := by
      rw [Multimap.targets, ih]
      split
      · next hnil => rw [hnil]; rfl
      · rfl
    rw [hstep, Multimap.getElem?_prepend, hconcat, targetsOf_cons, htargets]
    by_cases hv : edge.1 = v
    · rw [if_pos hv, if_pos hv, if_neg (by simp), List.reverse_append]
      rfl
    · rw [if_neg hv, if_neg hv, ih]
      show _ = if targetsOf v front ++ [] = [] then none else some (targetsOf v front ++ []).reverse
      rw [List.append_nil]

/-! ### Erasing a trail -/

theorem eraseTrail_eq (g : RenameGraph) (p : NodePool Fate) (trail : List (Fate × Fate)) : eraseTrail g p trail =
    trail.foldl (fun after edge => after.1.unlinkEdge after.2 edge.1 edge.2) (g, p) := by
  unfold eraseTrail
  congr 1
  funext after edge
  obtain ⟨g, p⟩ := after
  simp only [LinkGraph.erase, LinkGraph.unlinkEdge, reduceCtorEq, if_false]
  cases g.unlinkEdge? p edge.1 edge.2 <;> rfl

/-- The targets go one by one, each where it stands first. -/
theorem getElem?_foldl_removeFirst (m : Multimap Fate) (trail : List (Fate × Fate)) (v : Fate) :
    (trail.foldl (fun (m : Multimap Fate) edge => m.removeFirst edge.1 edge.2) m)[v]? =
      m[v]?.map fun list => list.diff (targetsOf v trail) := by
  induction trail generalizing m with
  | nil =>
    show m[v]? = m[v]?.map id
    rw [Option.map_id, id]
  | cons edge rest ih =>
    rw [List.foldl_cons, ih, Multimap.removeFirst, Multimap.getElem?_modify, targetsOf_cons]
    by_cases hv : edge.1 = v
    · rw [if_pos hv, if_pos hv, Option.map_map]
      simp only [Function.comp_def, List.diff_cons]
    · rw [if_neg hv, if_neg hv]

theorem steps_eraseTrail (h : Refines g p chain m) (trail : List (Fate × Fate)) :
    Steps (Owned chain) p (eraseTrail g p trail)
      (trail.foldl (fun (m : Multimap Fate) edge => m.removeFirst edge.1 edge.2) m) := by
  rw [eraseTrail_eq]
  exact h.foldl _ _ (fun edge h => h.unlinkEdge edge.1 edge.2) trail

/-- **An erased trail gives a handle back for every edge**, if the graph has that many. -/
theorem givenBack_eraseTrail (h : Refines g p chain m) (hsub : ∀ v, (targetsOf v trail).Subperm (m.targets v)) :
    ∃ ids, ids.length = trail.length ∧ GivenBack p (eraseTrail g p trail).2 ids := by
  rw [eraseTrail_eq]
  induction trail generalizing g p chain m with
  | nil => exact ⟨[], rfl, .refl p⟩
  | cons edge rest ih =>
    have hspec := h.unlinkEdge? edge.1 edge.2
    have hself := hsub edge.1
    rw [targetsOf_cons, if_pos rfl] at hself
    rw [List.foldl_cons, LinkGraph.unlinkEdge]
    cases hedge : g.unlinkEdge? p edge.1 edge.2 with
    | none =>
      rw [hedge] at hspec
      exact absurd (hself.subset List.mem_cons_self) hspec
    | some after =>
      rw [hedge] at hspec
      obtain ⟨_, chain', h', _⟩ := hspec
      obtain ⟨id, hid⟩ := LinkGraph.givenBack_unlinkEdge? hedge
      have hrest : ∀ v, (targetsOf v rest).Subperm ((m.removeFirst edge.1 edge.2).targets v) := by
        intro v
        have hv := hsub v
        have herase : ([] : List Fate).erase edge.2 = [] := rfl
        rw [targetsOf_cons] at hv
        rw [Multimap.removeFirst, m.targets_modify edge.1 v (f := fun list => list.erase edge.2) herase]
        by_cases hsource : edge.1 = v
        · rw [if_pos hsource] at hv ⊢
          simpa using hv.erase edge.2
        · rwa [if_neg hsource] at hv ⊢
      obtain ⟨ids, hlength, hids⟩ := ih h' hrest
      exact ⟨ids ++ [id], by simp [hlength], hid.trans hids⟩

/-! ### What is left -/

section Left
variable {α : Type} [DecidableEq α] {taken left : List α}

/-- Of what was taken and what was not, as much of each is left as was not taken. -/
theorem diff_perm (taken left : List α) : ((taken ++ left).reverse.diff taken).Perm left := by
  have hcount : ∀ x ∈ taken, taken.count x ≤ (taken ++ left).reverse.count x := by
    intro x _
    rw [List.count_reverse, List.count_append]
    omega
  have hall := List.subperm_append_diff_self_of_count_le hcount
  exact (List.perm_append_left_iff taken).mp (hall.trans (List.reverse_perm _))

theorem append_diff_of_disjoint (h : taken.Disjoint left) (rest : List α) :
    (left ++ rest).diff taken = left ++ rest.diff taken := by
  induction taken generalizing rest with
  | nil => rfl
  | cons x taken ih =>
    obtain ⟨hx, hdisjoint⟩ := List.disjoint_cons_left.mp h
    rw [List.diff_cons, List.erase_append_right _ hx, ih hdisjoint, List.diff_cons]

/-- What is left keeps its order if nothing was taken that is left as well. -/
theorem diff_eq_of_disjoint (h : taken.Disjoint left) : (taken ++ left).reverse.diff taken = left.reverse := by
  have hnone : taken.reverse.diff taken = [] := by
    have hperm := diff_perm taken []
    rw [List.append_nil] at hperm
    exact hperm.eq_nil
  rw [List.reverse_append, append_diff_of_disjoint (List.disjoint_reverse_right.mpr h), hnone, List.append_nil]

end Left

/-- What is left of the targets of `v` once the edges of a trail are erased, the latest one first. -/
def leftover (v : Fate) (log trail : List (Fate × Fate)) : List Fate :=
  (targetsOf v log).reverse.diff (targetsOf v trail)

/-- The targets of `v` to which a trail has not followed an edge, the oldest one first. -/
def unfollowed (v : Fate) (log trail : List (Fate × Fate)) : List Fate :=
  (targetsOf v log).drop (targetsOf v trail).length

/-- What an erased trail of `name` makes of the history of a log that took up nodes of the pool `base`. -/
structure Consumed (base : NodePool Fate) (log : List (Fate × Fate)) (before : RenameGraph × NodePool Fate)
    (name : String) (followed : List (Fate × Fate)) (after : Option Fate × RenameGraph × NodePool Fate) : Prop where
  trail : RenameGraph.trail before.1 before.2 name = followed
  answer : after.1 = (traceName before.1 before.2 name false).1
  /-- The trail follows the oldest edges of each name. -/
  oldest : ∀ v, targetsOf v log = targetsOf v followed ++ unfollowed v log followed
  /-- For each edge that was followed the latest one to its target is gone. -/
  related : ∀ v, after.2.1.related after.2.2 v = leftover v log followed
  perm : ∀ v, (leftover v log followed).Perm (unfollowed v log followed)
  inOrder : ∀ v, (targetsOf v followed).Disjoint (unfollowed v log followed) →
    leftover v log followed = (unfollowed v log followed).reverse
  heads : ∀ v, after.2.1.head? v ≠ none ↔ unfollowed v log followed ≠ []
  returned : ∃ ids, ids.length = followed.length ∧ GivenBack before.2 after.2.2 ids
  others : ∀ id, base.get? id ≠ none → after.2.2.get? id = base.get? id
  again : ∀ erase, (traceName after.2.1 after.2.2 name erase).1 = none ↔ unfollowed (.name name) log followed = []

theorem fst_traceName (g : RenameGraph) (p : NodePool Fate) (name : String) (erase : Bool) :
    (traceName g p name erase).1 = trace? g p name := by
  cases erase with
  | false => rfl
  | true =>
    show (consume g p name).1 = _
    unfold consume
    cases trace? g p name <;> rfl

/-- Only a name without edges has no history. -/
theorem trace?_eq_none (h : Refines g p chain m) (name : String) :
    trace? g p name = none ↔ m.targets (.name name) = [] := by
  have hfirst := h.shows.firstEdge (.name name)
  rw [trace?, Option.map_eq_none_iff, ← Option.isNone_iff_eq_none, ← Option.isSome_eq_false_iff, hfirst,
    Bool.not_eq_false', List.isEmpty_iff]

theorem targetsOf_greedyTrail (log : List (Fate × Fate)) (start v : Fate) :
    targetsOf v log = targetsOf v (greedyTrail log start) ++ unfollowed v log (greedyTrail log start) := by
  obtain ⟨rest, hrest⟩ := (out_greedyTrail log start v).map Prod.snd
  rw [unfollowed, targetsOf, targetsOf, ← hrest, List.drop_left]

theorem leftover_perm (log : List (Fate × Fate)) (start v : Fate) :
    (leftover v log (greedyTrail log start)).Perm (unfollowed v log (greedyTrail log start)) := by
  rw [leftover, targetsOf_greedyTrail log start v]
  exact diff_perm _ _

theorem leftover_eq_nil_iff (log : List (Fate × Fate)) (start v : Fate) :
    leftover v log (greedyTrail log start) = [] ↔ unfollowed v log (greedyTrail log start) = [] := by
  rw [← List.length_eq_zero_iff, (leftover_perm log start v).length_eq, List.length_eq_zero_iff]

theorem leftover_of_disjoint {start : Fate}
    (h : (targetsOf v (greedyTrail log start)).Disjoint (unfollowed v log (greedyTrail log start))) :
    leftover v log (greedyTrail log start) = (unfollowed v log (greedyTrail log start)).reverse := by
  rw [leftover, targetsOf_greedyTrail log start v]
  exact diff_eq_of_disjoint h

theorem greedyTrail_of_targetsOf {start : Fate} (h : targetsOf start log = []) : greedyTrail log start = [] := by
  have hout : out start log = [] := List.map_eq_nil_iff.mp h
  exact greedyTrail_of_none (List.find?_eq_none.mpr fun edge hedge => List.filter_eq_nil_iff.mp hout edge hedge)

/-- **Tracing and erasing** takes from the lists of the history what the trail followed, and drops the
heads that have nothing left. -/
theorem steps_consume {name : String} (h : Refines g p chain (recorded log))
    (htrail : RenameGraph.trail g p name = trail) (hsub : ∀ v, (targetsOf v trail).Subperm (targetsOf v log))
    (hnone : targetsOf (.name name) log = [] → trail = []) :
    (∃ m, Steps (Owned chain) p (consume g p name).2 m ∧
      ∀ v, m[v]? = if leftover v log trail = [] then none else some (leftover v log trail)) ∧
    ∃ ids, ids.length = trail.length ∧ GivenBack p (consume g p name).2.2 ids := by
  have htargets : ∀ v, (recorded log).targets v = (targetsOf v log).reverse := by
    intro v
    rw [Multimap.targets, getElem?_recorded]
    split
    · next hnil => rw [hnil]; rfl
    · rfl
  unfold consume
  cases htrace : trace? g p name with
  | none =>
    have hempty := (trace?_eq_none h name).mp htrace
    rw [htargets, List.reverse_eq_nil_iff] at hempty
    obtain rfl := hnone hempty
    refine ⟨⟨_, h.stay, fun v => ?_⟩, [], rfl, .refl p⟩
    show _ = if (targetsOf v log).reverse = [] then none else some (targetsOf v log).reverse
    rw [getElem?_recorded]
    cases targetsOf v log with
    | nil => rfl
    | cons target rest => rw [if_neg (List.cons_ne_nil _ _), if_neg (by simp)]
  | some fate =>
    rw [htrail]
    have herased := steps_eraseTrail h trail
    refine ⟨⟨_, herased.bind fun chain' h' => h'.removeEmpty.stay, fun v => ?_⟩, ?_⟩
    · rw [Multimap.getElem?_removeEmpty, getElem?_foldl_removeFirst, getElem?_recorded]
      by_cases hnil : targetsOf v log = []
      · rw [if_pos hnil, leftover, hnil, List.reverse_nil, List.nil_diff, if_pos rfl]
        rfl
      · rw [if_neg hnil, Option.map_some]
        show Option.filter _ (some (leftover v log trail)) = _
        cases leftover v log trail <;> rfl
    · exact givenBack_eraseTrail h fun v => by
        rw [htargets]
        exact (hsub v).trans (List.reverse_perm _).symm.subperm

/-- **What an erased trail leaves of a history.** -/
theorem consumed_ofEntries {ε : Type} [Entry ε] (es : Entries ε) (offset : Nat) {p : NodePool Fate} (hp : p.Valid)
    (capacity : UInt64) (name : String) :
    Consumed p (edges (es.values.drop offset)) (ofEntries es offset p capacity) name
      (greedyTrail (edges (es.values.drop offset)) (.name name))
      (traceName (ofEntries es offset p capacity).1 (ofEntries es offset p capacity).2 name true) := by
  obtain ⟨chain, hbuilt, hframe⟩ := steps_ofEntries es offset hp capacity
  obtain ⟨tagged, hholds, hedges⟩ := records_ofEntries es offset hp capacity
  have htrail := hholds.trail name
  rw [hedges] at htrail
  generalize edges (es.values.drop offset) = log at hbuilt htrail
  have holdest := targetsOf_greedyTrail log (.name name)
  obtain ⟨⟨m, ⟨chain', hafter, hframe'⟩, hm⟩, hreturned⟩ := steps_consume hbuilt htrail
    (fun v => by rw [holdest v]; exact (List.sublist_append_left _ _).subperm) greedyTrail_of_targetsOf
  have hleft : ∀ v, m.targets v = leftover v log (greedyTrail log (.name name)) := by
    intro v
    rw [Multimap.targets, hm]
    split
    · next hnil => exact hnil.symm
    · rfl
  refine ⟨htrail, fst_traceName .., holdest, fun v => (hafter.related v).trans (hleft v), leftover_perm log _,
    fun v => leftover_of_disjoint, ?heads, hreturned, ?others, ?again⟩
  case heads =>
    intro v
    refine (hafter.mem_iff v).symm.trans ?_
    rw [Std.TreeMap.mem_iff_isSome_getElem?, hm, Ne, ← leftover_eq_nil_iff]
    by_cases hv : leftover v log (greedyTrail log (.name name)) = []
    · simp [hv]
    · simp [hv]
  case others =>
    intro id hid
    have hall := hframe.trans hframe'
    have hother : ¬ Owned (fun _ : Fate => []) id := by
      intro hown
      obtain ⟨_, hmem⟩ := hown
      exact List.not_mem_nil hmem
    exact hall.untouched id hother fun hown => (hall.fresh id hown).elim hother hid
  case again =>
    intro erase
    rw [fst_traceName, ← leftover_eq_nil_iff, ← hleft]
    exact trace?_eq_none hafter name

/-- `a` is renamed away and its new name again, two other names become `a` in turn and are renamed as well,
the second one to the same name as the first `a`. -/
def handedOn : Entries Column :=
  { slots := [.owned (.renameOf "a" "b"), .owned (.renameOf "b" "x"), .owned (.renameOf "c" "a"),
      .owned (.renameOf "a" "d"), .owned (.renameOf "e" "a"), .owned (.renameOf "a" "b")] }

def handedOnHistory : RenameGraph × NodePool Fate := ofEntries handedOn 0 (.ofChunkSize 2) 1

def handedOnTraced : Option Fate × RenameGraph × NodePool Fate :=
  traceName handedOnHistory.1 handedOnHistory.2 "a" true

theorem consumed_ofEntries_handedOn :
    (NodePool.ofChunkSize 2 : NodePool Fate).Valid ∧
    Consumed (.ofChunkSize 2) (edges handedOn.values) handedOnHistory "a"
      [(.name "a", .name "b"), (.name "b", .name "x")] handedOnTraced ∧
    handedOnTraced.1 = some (.name "x") ∧
    unfollowed (.name "a") (edges handedOn.values) [(.name "a", .name "b"), (.name "b", .name "x")] =
      [.name "d", .name "b"] ∧
    handedOnTraced.2.1.related handedOnTraced.2.2 (.name "a") = [.name "d", .name "b"] ∧
    (traceName handedOnTraced.2.1 handedOnTraced.2.2 "a" false).1 = some (.name "b") := by
  have hp : (NodePool.ofChunkSize 2 : NodePool Fate).Valid := NodePool.valid_ofChunkSize 2
  have h := consumed_ofEntries handedOn 0 hp 1 "a"
  have hfollowed : greedyTrail (edges handedOn.values) (.name "a") =
      [(.name "a", .name "b"), (.name "b", .name "x")] := h.trail.symm.trans (by decide +kernel)
  refine ⟨hp, hfollowed ▸ h, by decide +kernel, by decide +kernel, by decide +kernel, by decide +kernel⟩

end RenameGraph
end SchemaShift

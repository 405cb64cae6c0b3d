import SchemaShift.Proofs.GraphOperations
import Mathlib.Data.List.Dedup

/-! Any number of graphs in one pool.

A `Shelf` holds graphs by name and the pool that they share, and a script calls
operations on one graph or another. Whatever the script, each graph can be seen
(`LinkGraph.Shows`) to be the multimap that its own calls make, as if no other
graph were there (`Shelf.shows_run`), and the pool holds no node but theirs. -/
namespace SchemaShift

/-! ### What can be seen of a graph -/

section Shows
variable {α : Type} [DecidableEq α] [Ord α]

/-- A node with the objects that follow it. -/
def NodePool.view (p : NodePool α) (node : Node α) : α × List α :=
  (node.object, (p.chain node.next).map Prod.snd)

/-- What is behind the first `object` of a list. -/
def behind (object : α) (list : List α) : List α := (list.dropWhile fun other => other ≠ object).tail

/-- Everything that can be asked of the graph is answered as the multimap does. -/
structure LinkGraph.Shows (g : LinkGraph α) (p : NodePool α) (m : Multimap α) : Prop where
  heads : g.heads.map p.view = m.toList
  size : g.size = m.size
  isEmpty : g.isEmpty = m.isEmpty
  related : ∀ a, g.related p a = m.targets a
  firstEdge : ∀ a, (g.firstEdge? a).isSome = !(m.targets a).isEmpty
  head : ∀ a, (g.find? p a none).map p.view = m[a]?.map fun list => (a, list)
  edge : ∀ a b, (g.find? p a (some b)).map p.view =
    if b ∈ m.targets a then some (b, behind b (m.targets a)) else none
  unlinked : ∀ a target mode, (g.erase p a target mode).2.2 = m.unlinked a target mode

end Shows

namespace LinkGraph.Refines

variable {α : Type} [DecidableEq α] [Ord α] [Std.TransOrd α] [Std.LawfulEqOrd α]
  {g : LinkGraph α} {p : NodePool α} {chain : α → List (NodeId × α)} {m : Multimap α}

omit [Std.TransOrd α] in
theorem view_head (h : Refines g p chain m) {a : α} {head : Node α} (hhead : g.head? a = some head) :
    p.view head = (a, (chain a).map Prod.snd) := by
  have hobject := ((head?_eq_some h.ordered).mp hhead).2
  rw [NodePool.view, hobject, ← firstEdge?_of_head? hhead, h.chain_eq]

/-- The heads with what hangs on them are the entries of the multimap, in the same order. -/
theorem heads (h : Refines g p chain m) : g.heads.map p.view = m.toList := by
  have hsorted : (g.heads.map p.view).Pairwise fun a b => compare a.1 b.1 = .lt :=
    List.pairwise_map.mpr h.ordered
  have hnodup : ∀ {list : List (α × List α)}, (list.Pairwise fun a b => compare a.1 b.1 = .lt) → list.Nodup :=
    fun hlist => hlist.imp fun hlt heq => ne_of_compare_lt hlt (congrArg Prod.fst heq)
  have hmem : ∀ entry, entry ∈ g.heads.map p.view ↔ entry ∈ m.toList := by
    rintro ⟨a, list⟩
    rw [Std.TreeMap.mem_toList_iff_getElem?_eq_some, h.lists, List.mem_map]
    constructor
    · rintro ⟨head, hhead, hview⟩
      have hfind := (head?_eq_some h.ordered).mpr ⟨hhead, congrArg Prod.fst hview⟩
      have hlist := congrArg Prod.snd ((h.view_head hfind).symm.trans hview)
      exact congrArg (Option.map fun _ => (chain a).map Prod.snd) hfind |>.trans (congrArg some hlist)
    · intro hlist
      obtain ⟨head, hfind, rfl⟩ := Option.map_eq_some_iff.mp hlist
      exact ⟨head, ((head?_eq_some h.ordered).mp hfind).1, h.view_head hfind⟩
  refine List.Perm.eq_of_pairwise (fun a b _ _ hab hba => ?_) hsorted Std.TreeMap.ordered_keys_toList
    ((List.perm_ext_iff_of_nodup (hnodup hsorted) (hnodup Std.TreeMap.ordered_keys_toList)).mpr hmem)
  exact absurd hba (Std.OrientedCmp.not_lt_of_lt hab)

omit [Std.TransOrd α] [Std.LawfulEqOrd α] in
theorem edge (h : Refines g p chain m) (a b : α) : (g.find? p a (some b)).map p.view =
    if b ∈ m.targets a then some (b, behind b (m.targets a)) else none := by
  rw [find?, NodePool.findInChain, h.chain_eq, h.targets]
  by_cases hmem : b ∈ (chain a).map Prod.snd
  case neg => rw [NodePool.matchIn_none hmem, if_neg hmem, Option.bind_none, Option.map_none]
  obtain ⟨front, id, back, hchain, hfront⟩ := exists_first hmem
  have hlinked := NodePool.linked_iff_segment.mp (hchain ▸ h.linked a)
  obtain ⟨_, _, _, next, hget, hback⟩ := NodePool.segment_append.mp hlinked
  have hnodup : (back.map Prod.fst).Nodup := by
    have hall := h.nodup a
    rw [hchain, List.map_append, List.map_cons] at hall
    exact (List.nodup_cons.mp (List.nodup_append.mp hall).2.1).2
  have hrest := NodePool.chain_of_linked (NodePool.linked_iff_segment.mpr hback) hnodup
  have hbehind : behind b ((chain a).map Prod.snd) = back.map Prod.snd := by
    rw [behind, hchain, List.map_append, List.map_cons, List.dropWhile_append_of_pos]
    · simp
    · intro other hother
      simpa using fun heq : other = b => hfront (heq ▸ hother)
  rw [if_pos hmem, hbehind, hchain, NodePool.matchIn_some hfront, Option.bind_some, hget, Option.map_some,
    NodePool.view, hrest]

/-- The nodes of a graph, head by head, are as many as the targets of the multimap. -/
theorem exists_ids (h : Refines g p chain m) :
    ∃ ids : List NodeId, ids.Nodup ∧ (∀ id, id ∈ ids ↔ Owned chain id) ∧
      ids.length = (m.toList.flatMap Prod.snd).length := by
  have hfind : ∀ {head}, head ∈ g.heads → g.head? head.object = some head := fun hhead =>
    (head?_eq_some h.ordered).mpr ⟨hhead, rfl⟩
  refine ⟨g.heads.flatMap fun head => (chain head.object).map Prod.fst, ?_, fun id => ?_, ?_⟩
  · refine List.nodup_flatMap.mpr ⟨fun head _ => h.nodup head.object, h.ordered.imp fun hlt id hid hid' => ?_⟩
    exact ne_of_compare_lt hlt (h.apart hid hid')
  · rw [List.mem_flatMap]
    constructor
    · rintro ⟨head, _, hid⟩
      exact ⟨head.object, hid⟩
    · rintro ⟨a, hid⟩
      cases hhead : g.head? a with
      | none =>
        rw [h.chain_eq_nil hhead] at hid
        exact absurd hid List.not_mem_nil
      | some head =>
        obtain ⟨hmem, rfl⟩ := (head?_eq_some h.ordered).mp hhead
        exact ⟨head, hmem, hid⟩
  · rw [← h.heads, List.length_flatMap, List.length_flatMap, List.map_map]
    refine congrArg List.sum (List.map_congr_left fun head hhead => ?_)
    rw [Function.comp_apply, h.view_head (hfind hhead), List.length_map, List.length_map]

theorem shows (h : Refines g p chain m) : g.Shows p m where
  heads := h.heads
  size := by
    rw [← Std.TreeMap.length_toList, ← h.heads, List.length_map]
    rfl
  isEmpty := by
    rw [← Std.TreeMap.isEmpty_toList, ← h.heads, List.isEmpty_map]
    rfl
  related := h.related
  firstEdge a := by rw [(h.linked a).isSome, h.targets, List.isEmpty_map]
  head a := by
    rw [find?, h.lists, Option.map_map]
    cases hhead : g.head? a with
    | none => rfl
    | some head => exact congrArg some (h.view_head hhead)
  edge := h.edge
  unlinked a target mode := (h.erase a target mode).2

end LinkGraph.Refines

/-! ### One call -/

/-- A call on a graph. -/
inductive GraphOp (α : Type) where
  | add (source : α) (target : Option α) (oneWay : Bool)
  | erase (source : α) (target : Option α) (mode : EraseMode)
  | replace (old new : α) (oneWay : Bool)
  | removeEmpty
  | clear
  deriving DecidableEq, Repr

namespace GraphOp

variable {α : Type} [DecidableEq α] [Ord α]

/-- What the call does to the graph and to the pool. -/
def onGraph (g : LinkGraph α) (p : NodePool α) : GraphOp α → LinkGraph α × NodePool α
  | add source target oneWay => g.add p source target oneWay
  | erase source target mode => ((g.erase p source target mode).1, (g.erase p source target mode).2.1)
  | replace old new oneWay => g.replace p old new oneWay
  | removeEmpty => (g.removeEmpty, p)
  | clear => g.clear p

/-- What the call does to a multimap. -/
def onMap (m : Multimap α) : GraphOp α → Multimap α
  | add source target oneWay => m.add source target oneWay
  | erase source target mode => m.erase source target mode
  | replace old new oneWay => m.replace old new oneWay
  | removeEmpty => m.removeEmpty
  | clear => ∅

variable [Std.TransOrd α] [Std.LawfulEqOrd α] {g : LinkGraph α} {p : NodePool α} {chain : α → List (NodeId × α)}
  {m : Multimap α}

/-- **One call** does to the graph what it does to the multimap. -/
theorem steps (op : GraphOp α) (h : g.Refines p chain m) :
    LinkGraph.Steps (LinkGraph.Owned chain) p (op.onGraph g p) (op.onMap m) := by
  cases op with
  | add source target oneWay => exact h.add source target oneWay
  | erase source target mode => exact (h.erase source target mode).1
  | replace old new oneWay => exact h.replace old new oneWay
  | removeEmpty => exact h.removeEmpty.stay
  | clear => exact h.clear

end GraphOp

/-! ### A script -/

/-- Graphs by name and the pool that they share. -/
structure Shelf (ι α : Type) where
  graph : ι → LinkGraph α
  pool : NodePool α

namespace Shelf

variable {ι α : Type} [DecidableEq ι] [DecidableEq α] [Ord α]

/-- Empty graphs and an empty pool. -/
def start (chunkSize : UInt64) : Shelf ι α := ⟨fun _ => {}, .ofChunkSize chunkSize⟩

/-- Calls an operation on the graph `i`. -/
def call (s : Shelf ι α) (i : ι) (op : GraphOp α) : Shelf ι α :=
  let (g, p) := op.onGraph (s.graph i) s.pool
  ⟨Function.update s.graph i g, p⟩

/-- Makes the calls of a script. -/
def run (s : Shelf ι α) (script : List (ι × GraphOp α)) : Shelf ι α :=
  script.foldl (fun s entry => s.call entry.1 entry.2) s

/-- The multimap that the calls on `i` make out of `m`. -/
def calls (script : List (ι × GraphOp α)) (i : ι) (m : Multimap α) : Multimap α :=
  script.foldl (fun m entry => if entry.1 = i then entry.2.onMap m else m) m

/-- Every graph refines its multimap, in nodes that it shares with no other graph, and the pool has no
other nodes in use. -/
structure Refines (s : Shelf ι α) (chain : ι → α → List (NodeId × α)) (m : ι → Multimap α) : Prop where
  graph : ∀ i, (s.graph i).Refines s.pool (chain i) (m i)
  apart : ∀ {i j id}, LinkGraph.Owned (chain i) id → LinkGraph.Owned (chain j) id → i = j
  owned : ∀ id, s.pool.get? id ≠ none → ∃ i, LinkGraph.Owned (chain i) id

/-- The targets in all the lists of the graph `i`. -/
def held (script : List (ι × GraphOp α)) (i : ι) : List α := (calls script i ∅).toList.flatMap Prod.snd

variable [Std.TransOrd α] [Std.LawfulEqOrd α] {s : Shelf ι α} {chain : ι → α → List (NodeId × α)}
  {m : ι → Multimap α}

omit [DecidableEq ι] [Std.LawfulEqOrd α] in
theorem refines_start (chunkSize : UInt64) :
    (start chunkSize : Shelf ι α).Refines (fun _ _ => []) fun _ => ∅ where
  graph _ := LinkGraph.refines_empty (NodePool.valid_ofChunkSize chunkSize)
  apart := fun ⟨_, hid⟩ => absurd hid List.not_mem_nil
  owned id hused := by
    refine absurd ?_ hused
    simp [start, NodePool.ofChunkSize, NodePool.get?]

/-- **One call** leaves the other graphs alone. -/
theorem Refines.call (h : s.Refines chain m) (i : ι) (op : GraphOp α) :
    ∃ chain', (s.call i op).Refines chain' (Function.update m i (op.onMap (m i))) := by
  obtain ⟨own, hown, hframe⟩ := op.steps (h.graph i)
  have hkept : ∀ {j}, j ≠ i → (s.graph j).Refines (s.call i op).pool (chain j) (m j) ∧
      ∀ id, LinkGraph.Owned (chain j) id → ¬ LinkGraph.Owned own id := fun {j} hj =>
    (h.graph j).beside hframe hown.pool fun _ hid hi => hj (h.apart hid hi)
  refine ⟨Function.update chain i own, ?graph, ?apart, ?owned⟩
  case graph =>
    intro j
    by_cases hj : j = i
    · subst hj
      simpa [Shelf.call] using hown
    · rw [Function.update_of_ne hj, Function.update_of_ne hj]
      have hgraph : (s.call i op).graph j = s.graph j := Function.update_of_ne hj _ _
      rw [hgraph]
      exact (hkept hj).1
  case apart =>
    intro j k id hj hk
    by_cases hji : j = i <;> by_cases hki : k = i
    · rw [hji, hki]
    · rw [hji, Function.update_self] at hj
      rw [Function.update_of_ne hki] at hk
      exact absurd hj ((hkept hki).2 id hk)
    · rw [hki, Function.update_self] at hk
      rw [Function.update_of_ne hji] at hj
      exact absurd hk ((hkept hji).2 id hj)
    · rw [Function.update_of_ne hji] at hj
      rw [Function.update_of_ne hki] at hk
      exact h.apart hj hk
  case owned =>
    intro id hused
    by_cases howns : LinkGraph.Owned own id
    · exact ⟨i, by rwa [Function.update_self]⟩
    · by_cases hi : LinkGraph.Owned (chain i) id
      · exact absurd (hframe.released id hi howns) hused
      · obtain ⟨j, hj⟩ := h.owned id ((hframe.untouched id hi howns) ▸ hused)
        have hne : j ≠ i := fun heq => hi (heq ▸ hj)
        exact ⟨j, by rwa [Function.update_of_ne hne]⟩

/-- **A script** makes every graph what its own calls make its multimap. -/
theorem Refines.run (h : s.Refines chain m) (script : List (ι × GraphOp α)) :
    ∃ chain', (s.run script).Refines chain' fun i => calls script i (m i) := by
  induction script generalizing s chain m with
  | nil => exact ⟨chain, h⟩
  | cons entry rest ih =>
    obtain ⟨chain', h'⟩ := h.call entry.1 entry.2
    obtain ⟨chain'', h''⟩ := ih h'
    have hcalls : ∀ i, calls rest i (Function.update m entry.1 (entry.2.onMap (m entry.1)) i) =
        calls (entry :: rest) i (m i) := by
      intro i
      rw [calls, calls, List.foldl_cons]
      by_cases hi : entry.1 = i
      · subst hi
        rw [if_pos rfl, Function.update_self]
      · rw [if_neg hi, Function.update_of_ne (Ne.symm hi)]
    exact ⟨chain'', funext hcalls ▸ h''⟩

/-- The pool has one node for every target of the graphs. -/
theorem Refines.size (h : s.Refines chain m) {names : List ι} (hnodup : names.Nodup)
    (hnames : ∀ i, i ∉ names → m i = ∅) :
    s.pool.size = (names.flatMap fun i => (m i).toList.flatMap Prod.snd).length := by
  choose ids hids using fun i => (h.graph i).exists_ids
  have hall : s.pool.size = (names.flatMap ids).length := by
    refine NodePool.size_eq_length (List.nodup_flatMap.mpr ⟨fun i _ => (hids i).1, ?_⟩) fun id => ?_
    · refine hnodup.imp fun hne id hid hid' => ?_
      exact hne (h.apart (((hids _).2.1 id).mp hid) (((hids _).2.1 id).mp hid'))
    · rw [List.mem_flatMap]
      constructor
      · rintro ⟨i, _, hid⟩
        obtain ⟨a, hid⟩ := ((hids i).2.1 id).mp hid
        exact (h.graph i).in_use hid
      · intro hused
        obtain ⟨i, hown⟩ := h.owned id hused
        refine ⟨i, ?_, ((hids i).2.1 id).mpr hown⟩
        by_contra hi
        obtain ⟨a, hid⟩ := hown
        have hnone := (h.graph i).lists a
        rw [hnames i hi, Std.TreeMap.getElem?_emptyc] at hnone
        rw [(h.graph i).chain_eq_nil (Option.map_eq_none_iff.mp hnone.symm)] at hid
        exact absurd hid List.not_mem_nil
  rw [hall, List.length_flatMap, List.length_flatMap]
  exact congrArg List.sum (List.map_congr_left fun i _ => (hids i).2.2)

omit [Std.TransOrd α] [Std.LawfulEqOrd α] in
/-- Without calls nothing changes. -/
theorem calls_of_not_mem {script : List (ι × GraphOp α)} {i : ι} (h : i ∉ script.map Prod.fst)
    (m : Multimap α) : calls script i m = m := by
  induction script with
  | nil => rfl
  | cons entry rest ih =>
    rw [List.map_cons, List.mem_cons, not_or] at h
    rw [calls, List.foldl_cons, if_neg (Ne.symm h.1)]
    exact ih h.2

/-- **Every graph is its own multimap.** Whatever is called on the graphs of a pool, each of them shows
the multimap that the calls on it make, and the pool has one node in use for every target. -/
theorem shows_run (chunkSize : UInt64) (script : List (ι × GraphOp α)) :
    (∀ i, (((start chunkSize).run script).graph i).Shows ((start chunkSize).run script).pool (calls script i ∅)) ∧
      ((start chunkSize).run script).pool.size = ((script.map Prod.fst).dedup.flatMap (held script)).length := by
  obtain ⟨chain, h⟩ := (refines_start (ι := ι) (α := α) chunkSize).run script
  refine ⟨fun i => (h.graph i).shows, h.size (List.nodup_dedup _) fun i hi => ?_⟩
  exact calls_of_not_mem (fun hmem => hi (List.mem_dedup.mpr hmem)) ∅

/-- Two graphs by turns: the second one gives nodes back that the first one takes up. -/
def turns : List (Nat × GraphOp Nat) :=
  [(0, .add 1 (some 2) false), (1, .add 1 (some 1) false), (0, .replace 2 3 false), (1, .erase 1 none .mirror),
    (0, .add 1 (some 1) true), (1, .add 7 (some 8) true)]

theorem shows_run_turns :
    (((start 2).run turns).graph 0).heads.map ((start 2).run turns).pool.view = [(1, [1, 3]), (3, [1])] ∧
      (((start 2).run turns).graph 1).heads.map ((start 2).run turns).pool.view = [(1, []), (7, [8])] ∧
      ((start 2).run turns).pool.size = 4 := by
  obtain ⟨hshows, hsize⟩ := shows_run 2 turns
  exact ⟨(hshows 0).heads.trans (by decide), (hshows 1).heads.trans (by decide), hsize.trans (by decide)⟩

end Shelf
end SchemaShift

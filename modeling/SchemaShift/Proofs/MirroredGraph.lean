import SchemaShift.Proofs.SharedPool
import Mathlib.Data.List.Count

/-! Mirrored graphs.

A graph that every call keeps mirrored (`GraphOp.isMirrored`) has as many edges
from one object to another as it has back, however often an edge was added and
whatever was replaced by what (`Multimap.Symmetric`). What is counted is
`Multimap.edges`: one lemma says what each operation does to the count, and the
symmetry of a whole script follows (`Shelf.symmetric_run`). An object whose edges
are all erased is then a target nowhere. -/
namespace SchemaShift

namespace Multimap

variable {α : Type} [DecidableEq α] [Ord α]

/-- The number of edges from one object to another. -/
def edges (m : Multimap α) (a b : α) : Nat := (m.targets a).count b

/-- As many edges lead from one object to another as lead back. -/
def Symmetric (m : Multimap α) : Prop := ∀ a b, m.edges a b = m.edges b a

variable [Std.TransOrd α] [Std.LawfulEqOrd α] (m : Multimap α) (source target a b : α)

/-! ### What an operation does to the lists -/

theorem targets_register : targets (m.insertIfNew source []) a = m.targets a := by
  rw [targets, getElem?_register, targets]
  cases m[a]? with
  | some list => rfl
  | none => by_cases hsource : source = a <;> simp [hsource]

theorem targets_empty : (m.empty source).targets a = if source = a then [] else m.targets a :=
  m.targets_modify source a rfl

omit [DecidableEq α] [Std.LawfulEqOrd α] in
theorem targets_removeEmpty : m.removeEmpty.targets a = m.targets a := by
  rw [targets, getElem?_removeEmpty, targets]
  cases m[a]? with
  | none => rfl
  | some list => cases list <;> rfl

theorem targets_rename (old new : α) :
    (m.rename old new).targets a = (m.targets a).map (renamed old new) := by
  rw [targets, getElem?_rename, targets]
  cases m[a]? <;> rfl

theorem targets_unlink : (m.unlink source).targets a =
    if a ∈ m.targets source then (m.targets a).filter (· ≠ source) else m.targets a := by
  have hlist : m.targets a = m[a]?.getD [] := rfl
  rw [targets, getElem?_unlink, hlist]
  cases m[a]? with
  | none => simp
  | some list => rfl

/-- The list of `old` goes behind that of `new`, also where there is none. -/
theorem targets_replace (old new : α) : (m.replace old new false).targets a =
    (if old = a then [] else (m.rename old new).targets a) ++
      if new = a then (m.rename old new).targets old else [] := by
  cases hold : (m.rename old new)[old]? with
  | none =>
    have hreplace : m.replace old new false = m.rename old new := by simp only [replace, hold]
    have hnil : (m.rename old new).targets old = [] := by rw [targets, hold]; rfl
    rw [hreplace, hnil, ite_self, List.append_nil]
    split
    · next heq => rw [← heq, hnil]
    · rfl
  | some moved =>
    have hreplace : m.replace old new false =
        append (Std.TreeMap.erase (m.rename old new) old) new moved := by simp only [replace, hold]
    have hmoved : (m.rename old new).targets old = moved := by rw [targets, hold]; rfl
    rw [hreplace, hmoved]
    have hkept : targets (Std.TreeMap.erase (m.rename old new) old : Multimap α) a =
        if old = a then [] else (m.rename old new).targets a := by
      rw [targets, getElem?_withoutKey, targets]
      split <;> rfl
    rw [← hkept, targets, getElem?_append]
    split
    · rfl
    · rw [List.append_nil]
      rfl

/-! ### What an operation does to the count -/

theorem edges_prepend : (m.prepend source target).edges a b =
    m.edges a b + if source = a ∧ target = b then 1 else 0 := by
  rw [edges, targets, getElem?_prepend, edges]
  by_cases hsource : source = a
  · simp [hsource, List.count_cons]
  · simp [hsource, targets]

theorem edges_removeFirst : (m.removeFirst source target).edges a b =
    m.edges a b - if source = a ∧ target = b then 1 else 0 := by
  have herase : ([] : List α).erase target = [] := rfl
  rw [edges, removeFirst, m.targets_modify source a (f := fun list => list.erase target) herase, edges]
  by_cases hsource : source = a
  · simp [hsource, List.count_erase]
  · simp [hsource]

/-- Taking one edge to `target` away from each of the sources. -/
theorem edges_foldl_removeFirst (sources : List α) :
    edges (sources.foldl (fun (m : Multimap α) object => m.removeFirst object target) m) a b =
      m.edges a b - if target = b then sources.count a else 0 := by
  induction sources generalizing m with
  | nil => simp
  | cons source rest ih =>
    rw [List.foldl_cons, ih, edges_removeFirst, List.count_cons]
    by_cases htarget : target = b
    · by_cases hsource : source = a
      · simp only [htarget, hsource, beq_self_eq_true, and_self, if_true]
        omega
      · simp [hsource]
    · simp [htarget]

omit [Ord α] [Std.TransOrd α] [Std.LawfulEqOrd α] in
/-- A list after the renaming: `new` stands in the place of `old`. -/
theorem count_map_renamed {old new : α} (hne : old ≠ new) (list : List α) :
    (list.map (renamed old new)).count b =
      if b = new then list.count new + list.count old else if b = old then 0 else list.count b := by
  induction list with
  | nil => simp
  | cons object rest ih =>
    rw [List.map_cons, List.count_cons, ih]
    simp only [List.count_cons, renamed, beq_iff_eq]
    grind

omit [Ord α] [Std.TransOrd α] [Std.LawfulEqOrd α] in
theorem map_renamed_self (list : List α) : list.map (renamed a a) = list := by
  conv_rhs => rw [← List.map_id list]
  refine List.map_congr_left fun object _ => ?_
  unfold renamed
  split
  · next heq => exact heq.symm
  · rfl

/-! ### Symmetric multimaps -/

variable {m}

omit [Std.TransOrd α] [Std.LawfulEqOrd α] in
theorem Symmetric.mem_iff (h : m.Symmetric) : b ∈ m.targets a ↔ a ∈ m.targets b := by
  have hab : (m.targets a).count b = (m.targets b).count a := h a b
  rw [← List.count_pos_iff, ← List.count_pos_iff, hab]

theorem Symmetric.add (h : m.Symmetric) (target : Option α) : (m.add source target false).Symmetric := by
  intro a b
  cases target with
  | none =>
    have hsame : ∀ a b, (m.add source none false).edges a b = m.edges a b := fun a b => by
      rw [edges, Multimap.add, targets_register, edges]
    rw [hsame, hsame, h]
  | some target =>
    have hcount : ∀ a b, (m.add source (some target) false).edges a b =
        m.edges a b + (if source = a ∧ target = b then 1 else 0) + if target = a ∧ source = b then 1 else 0 :=
      fun a b => by
        rw [Multimap.add, if_neg (by decide), edges_prepend, edges_prepend]
    rw [hcount, hcount, h a b]
    simp only [and_comm]
    omega

/-- One edge and its mirror go. -/
theorem Symmetric.eraseEdge (h : m.Symmetric) : (m.erase source (some target) .mirror).Symmetric := by
  have herase : m.erase source (some target) .mirror =
      if target ∈ m.targets source then (m.removeFirst source target).removeFirst target source else m := by
    unfold erase
    rfl
  rw [herase]
  split
  · intro a b
    rw [edges_removeFirst, edges_removeFirst, edges_removeFirst, edges_removeFirst, h a b]
    simp only [and_comm]
    omega
  · exact h

/-- **Erasing all edges of an object** leaves none from it and none to it. -/
theorem Symmetric.edges_erase (h : m.Symmetric) {mode : EraseMode} (hmode : mode ≠ .keep) :
    (m.erase source none mode).edges a b = if source = a ∨ source = b then 0 else m.edges a b := by
  have hback := h.mem_iff (m := m) a source
  have hmirror := h a source
  cases mode with
  | keep => exact absurd rfl hmode
  | mirror =>
    -- As many edges lead back to the object as its list has released.
    have herase : m.erase source none .mirror =
        (m.targets source).foldl (fun (m : Multimap α) object => m.removeFirst object source) (m.empty source) := by
      unfold erase
      rfl
    rw [herase, edges_foldl_removeFirst, edges, targets_empty]
    change _ - (if source = b then m.edges source a else 0) = _
    by_cases ha : source = a
    · simp [ha]
    · by_cases hb : source = b
      · subst hb
        simp only [if_neg ha, if_true, or_true]
        change m.edges a source - m.edges source a = 0
        omega
      · simp [ha, hb, edges]
  | unlink =>
    have herase : m.erase source none .unlink = (m.unlink source).empty source := by
      unfold erase
      rfl
    rw [herase, edges, targets_empty, targets_unlink]
    by_cases ha : source = a
    · simp [ha]
    · rw [if_neg ha]
      by_cases hb : source = b
      · subst hb
        rw [if_pos (Or.inr rfl)]
        split
        · exact List.count_eq_zero.mpr (by simp)
        · next hnot => exact List.count_eq_zero.mpr fun hmem => hnot (hback.mp hmem)
      · rw [if_neg (not_or.mpr ⟨ha, hb⟩)]
        split
        · exact List.count_filter (by simpa using Ne.symm hb)
        · rfl

theorem Symmetric.eraseAll (h : m.Symmetric) {mode : EraseMode} (hmode : mode ≠ .keep) :
    (m.erase source none mode).Symmetric := by
  intro a b
  rw [h.edges_erase source a b hmode, h.edges_erase source b a hmode, h a b]
  simp only [or_comm]

/-- `new` takes the place of `old` at both ends of every edge. -/
theorem Symmetric.replace (h : m.Symmetric) (old new : α) : (m.replace old new false).Symmetric := by
  have hcount : ∀ a b, (m.replace old new false).edges a b =
      (if old = a then 0 else ((m.targets a).map (renamed old new)).count b) +
        if new = a then ((m.targets old).map (renamed old new)).count b else 0 := by
    intro a b
    rw [edges, targets_replace, List.count_append, targets_rename, targets_rename]
    split <;> split <;> rfl
  intro a b
  rw [hcount, hcount]
  by_cases hsame : old = new
  · subst hsame
    simp only [map_renamed_self]
    have hab := h a b
    unfold edges at hab
    grind
  · simp only [count_map_renamed _ hsame]
    have hpairs : ∀ c d, (m.targets c).count d = (m.targets d).count c := h
    grind

omit [Std.LawfulEqOrd α] in
theorem Symmetric.removeEmpty (h : m.Symmetric) : m.removeEmpty.Symmetric := by
  intro a b
  rw [edges, edges, targets_removeEmpty, targets_removeEmpty]
  exact h a b

omit [Std.LawfulEqOrd α] in
theorem symmetric_empty : (∅ : Multimap α).Symmetric := by
  intro a b
  simp [edges, targets]

end Multimap

/-! ### Mirrored calls -/

namespace GraphOp

variable {α : Type}

/-- The call treats every edge as it treats its mirror. -/
def isMirrored : GraphOp α → Bool
  | add _ _ oneWay => !oneWay
  | erase _ target mode => mode = .mirror || mode = .unlink && target.isNone
  | replace _ _ oneWay => !oneWay
  | removeEmpty => true
  | clear => true

variable [DecidableEq α] [Ord α] [Std.TransOrd α] [Std.LawfulEqOrd α]

theorem symmetric_onMap {op : GraphOp α} (hop : op.isMirrored = true) {m : Multimap α} (h : m.Symmetric) :
    (op.onMap m).Symmetric := by
  cases op with
  | add source target oneWay =>
    obtain rfl : oneWay = false := by simpa [isMirrored] using hop
    exact h.add source target
  | erase source target mode =>
    cases target with
    | some target =>
      obtain rfl : mode = .mirror := by simpa [isMirrored] using hop
      exact h.eraseEdge source target
    | none => exact h.eraseAll source (by rintro rfl; simp [isMirrored] at hop)
  | replace old new oneWay =>
    obtain rfl : oneWay = false := by simpa [isMirrored] using hop
    exact h.replace old new
  | removeEmpty => exact h.removeEmpty
  | clear => exact Multimap.symmetric_empty

end GraphOp

namespace Shelf

variable {ι α : Type} [DecidableEq ι] [DecidableEq α] [Ord α] [Std.TransOrd α] [Std.LawfulEqOrd α]

theorem symmetric_calls {script : List (ι × GraphOp α)} {i : ι}
    (hscript : ∀ entry ∈ script, entry.1 = i → entry.2.isMirrored = true) {m : Multimap α} (h : m.Symmetric) :
    (calls script i m).Symmetric := by
  induction script generalizing m with
  | nil => exact h
  | cons entry rest ih =>
    have hrest := fun other hother => hscript other (List.mem_cons_of_mem entry hother)
    rw [calls, List.foldl_cons]
    split
    · next hi => exact ih hrest (GraphOp.symmetric_onMap (hscript entry List.mem_cons_self hi) h)
    · exact ih hrest h

/-- **Mirrored graphs stay symmetric.** Where the calls on the graph `i` are mirrored ones, whatever is
called on other graphs of the pool, as many edges lead from `a` to `b` as lead back. So an object whose
edges are all erased, in the mode for mirrors or for unlinking, is on no chain of the graph. -/
theorem symmetric_run (chunkSize : UInt64) (script : List (ι × GraphOp α)) (i : ι)
    (hscript : ∀ entry ∈ script, entry.1 = i → entry.2.isMirrored = true) :
    (∀ a b, ((((start chunkSize).run script).graph i).related ((start chunkSize).run script).pool a).count b =
        ((((start chunkSize).run script).graph i).related ((start chunkSize).run script).pool b).count a) ∧
      ∀ a mode, mode ≠ .keep → ∀ b,
        a ∉ ((((start chunkSize).run script).call i (.erase a none mode)).graph i).related
          (((start chunkSize).run script).call i (.erase a none mode)).pool b := by
  obtain ⟨chain, h⟩ := (refines_start (ι := ι) (α := α) chunkSize).run script
  have hsymmetric := symmetric_calls hscript (Multimap.symmetric_empty (α := α))
  refine ⟨fun a b => ?_, fun a mode hmode b => ?_⟩
  · rw [(h.graph i).related, (h.graph i).related]
    exact hsymmetric a b
  · obtain ⟨chain', h'⟩ := h.call i (.erase a none mode)
    rw [(h'.graph i).related, Function.update_self]
    refine List.count_eq_zero.mp ?_
    exact (hsymmetric.edges_erase a b a hmode).trans (if_pos (.inr rfl))

/-- Two of a kind, an edge to itself and a merger, with another graph that mirrors nothing. -/
def pairs : List (Nat × GraphOp Nat) :=
  [(0, .add 1 (some 2) false), (1, .add 2 (some 1) true), (0, .add 1 (some 1) false),
    (0, .add 2 (some 1) false), (0, .add 1 (some 4) false), (0, .replace 4 2 false),
    (0, .erase 2 (some 1) .mirror)]

theorem symmetric_run_pairs :
    (∀ entry ∈ pairs, entry.1 = 0 → entry.2.isMirrored = true) ∧
      (((start 2).run pairs).graph 0).related ((start 2).run pairs).pool 1 = [2, 1, 1, 2] ∧
      ((((start 2).run pairs).graph 0).related ((start 2).run pairs).pool 1).count 2 =
        ((((start 2).run pairs).graph 0).related ((start 2).run pairs).pool 2).count 1 ∧
      2 ∉ ((((start 2).run pairs).call 0 (.erase 2 none .unlink)).graph 0).related
        (((start 2).run pairs).call 0 (.erase 2 none .unlink)).pool 1 := by
  have hscript : ∀ entry ∈ pairs, entry.1 = 0 → entry.2.isMirrored = true := by decide
  obtain ⟨hcount, herased⟩ := symmetric_run 2 pairs 0 hscript
  exact ⟨hscript, by decide, hcount 1 2, herased 2 .unlink (by decide) 1⟩

end Shelf
end SchemaShift

import SchemaShift.LinkGraph
import Mathlib.Data.List.Nodup

/-! Ordered multimaps.

What a graph is meant to be: a map, in the order of its keys, from every object to
the list of the objects that it relates to. The operations are those of a graph,
said without chains and pools, each with what it does to a look-up. -/
namespace SchemaShift

/-- A map in the order of its keys from objects to the objects that they relate to. -/
abbrev Multimap (α : Type) [Ord α] := Std.TreeMap α (List α) compare

namespace Multimap

section Operations
variable {α : Type} [DecidableEq α] [Ord α]

/-- The list of an object, which is empty without a key. -/
def targets (m : Multimap α) (object : α) : List α := m[object]?.getD []

/-- Puts `target` in front of the list of `source`. -/
def prepend (m : Multimap α) (source target : α) : Multimap α :=
  m.alter source fun list => some (target :: list.getD [])

/-- Puts `moved` behind the list of `source`. -/
def append (m : Multimap α) (source : α) (moved : List α) : Multimap α :=
  m.alter source fun list => some (list.getD [] ++ moved)

/-- Removes the first `target` from the list of `source`. -/
def removeFirst (m : Multimap α) (source target : α) : Multimap α :=
  m.modify source fun list => list.erase target

/-- Removes every `target` from the list of `source`. -/
def removeAll (m : Multimap α) (source target : α) : Multimap α :=
  m.modify source fun list => list.filter (· ≠ target)

/-- Relates `source` to `target`, and back unless `oneWay`. -/
def add (m : Multimap α) (source : α) (target : Option α) (oneWay : Bool) : Multimap α :=
  match target with
  | none => m.insertIfNew source []
  | some target =>
    if oneWay then m.prepend source target else (m.prepend source target).prepend target source

/-- Removes every `source` from the lists of its targets. -/
def unlink (m : Multimap α) (source : α) : Multimap α :=
  m.map fun object list => if object ∈ m.targets source then list.filter (· ≠ source) else list

/-- Empties the list of `source`. -/
def empty (m : Multimap α) (source : α) : Multimap α := m.modify source fun _ => []

/-- Removes the first `target` from the list of `source`, or empties it without one. The mirror of
what is removed goes too in the mode for that, and all of it first when `source` is unlinked. -/
def erase (m : Multimap α) (source : α) (target : Option α) (mode : EraseMode) : Multimap α :=
  let m : Multimap α := if mode = .unlink then m.unlink source else m
  match target with
  | some target =>
    if target ∈ m.targets source then
      let m : Multimap α := m.removeFirst source target
      if mode = .mirror then m.removeFirst target source else m
    else m
  | none =>
    if mode = .mirror then
      (m.targets source).foldl (fun (m : Multimap α) object => m.removeFirst object source) (m.empty source)
    else m.empty source

/-- What an erasure reports as unlinked. -/
def unlinked (m : Multimap α) (source : α) (target : Option α) (mode : EraseMode) : Option α :=
  if mode = .unlink ∧ (target ≠ none ∨ source ∈ m) then some source else none

/-- `new` in the place of `old`. -/
def renamed {α : Type} [DecidableEq α] (old new object : α) : α := if object = old then new else object

/-- Puts `new` in the place of `old` in every list. -/
def rename (m : Multimap α) (old new : α) : Multimap α := m.map fun _ list => list.map (renamed old new)

/-- Puts `new` in the place of `old` in every list. Unless `oneWay`, the key `old` goes, and its list
behind that of `new`. -/
def replace (m : Multimap α) (old new : α) (oneWay : Bool) : Multimap α :=
  let m : Multimap α := m.rename old new
  match oneWay, m[old]? with
  | false, some moved => append (Std.TreeMap.erase m old) new moved
  | _, _ => m

/-- Drops the keys without targets. -/
def removeEmpty (m : Multimap α) : Multimap α := m.filter fun _ list => !list.isEmpty

end Operations

/-! ### Looking up -/

section Lookup
variable {α : Type} [DecidableEq α] [Ord α] [Std.TransOrd α] [Std.LawfulEqOrd α]
  (m : Multimap α) (source target object : α)

theorem getElem?_register :
    (m.insertIfNew source [] : Multimap α)[object]? = m[object]?.or (if source = object then some [] else none) := by
  rw [Std.TreeMap.getElem?_insertIfNew]
  by_cases hsource : source = object
  · subst hsource
    by_cases hmem : source ∈ m
    · have hsome := Std.TreeMap.mem_iff_isSome_getElem?.mp hmem
      obtain ⟨list, hlist⟩ := Option.isSome_iff_exists.mp hsome
      simp [hmem]
    · simp [hmem]
  · simp [hsource]

theorem getElem?_prepend : (m.prepend source target)[object]? =
    if source = object then some (target :: m.targets object) else m[object]? := by
  rw [prepend, Std.TreeMap.getElem?_alter]
  by_cases hsource : source = object
  · subst hsource
    simp [targets]
  · simp [hsource]

theorem getElem?_append (moved : List α) : (m.append source moved)[object]? =
    if source = object then some (m.targets object ++ moved) else m[object]? := by
  rw [append, Std.TreeMap.getElem?_alter]
  by_cases hsource : source = object
  · subst hsource
    simp [targets]
  · simp [hsource]

theorem getElem?_modify (f : List α → List α) : (m.modify source f : Multimap α)[object]? =
    if source = object then m[object]?.map f else m[object]? := by
  rw [Std.TreeMap.getElem?_modify]
  by_cases hsource : source = object
  · subst hsource
    simp
  · simp [hsource]

theorem targets_modify {f : List α → List α} (hf : f [] = []) :
    targets (m.modify source f) object = if source = object then f (m.targets object) else m.targets object := by
  rw [targets, getElem?_modify, targets]
  split
  · cases m[object]? <;> simp [hf]
  · rfl

theorem getElem?_removeFirst_of_not_mem (h : target ∉ m.targets source) :
    (m.removeFirst source target)[object]? = m[object]? := by
  rw [removeFirst, getElem?_modify]
  split
  · next hsource =>
    subst hsource
    cases hlist : m[source]? with
    | none => rfl
    | some list =>
      rw [targets, hlist] at h
      exact congrArg some (List.erase_of_not_mem h)
  · rfl

theorem getElem?_removeAll_removeFirst :
    ((m.removeFirst source target).removeAll source target)[object]? = (m.removeAll source target)[object]? := by
  rw [removeAll, removeAll, removeFirst, getElem?_modify, getElem?_modify, getElem?_modify]
  split
  · rw [Option.map_map]
    congr 1
    funext list
    exact List.erase_filter.symm.trans (List.erase_of_not_mem (by simp))
  · rfl

theorem getElem?_removeAll_of_not_mem (h : target ∉ m.targets source) :
    (m.removeAll source target)[object]? = m[object]? := by
  rw [removeAll, getElem?_modify]
  split
  · next hsource =>
    subst hsource
    cases hlist : m[source]? with
    | none => rfl
    | some list =>
      rw [targets, hlist] at h
      refine congrArg some (List.filter_eq_self.mpr fun other hother => ?_)
      simpa using fun heq : other = target => h (heq ▸ hother)
  · rfl

/-- A change that makes no difference a second time, made at the keys of a list. -/
theorem getElem?_foldl_modify {f : List α → List α} (hf : ∀ list, f (f list) = f list) (sources : List α) :
    (sources.foldl (fun (m : Multimap α) source => m.modify source f) m)[object]? =
      m[object]?.map fun list => if object ∈ sources then f list else list := by
  induction sources generalizing m with
  | nil => simp
  | cons source rest ih =>
    rw [List.foldl_cons, ih, getElem?_modify]
    by_cases hsource : source = object
    · subst hsource
      cases m[source]? <;> simp [hf]
    · simp only [hsource, if_false, List.mem_cons, Ne.symm hsource, false_or]

theorem getElem?_unlink : (m.unlink source)[object]? =
    m[object]?.map fun list => if object ∈ m.targets source then list.filter (· ≠ source) else list :=
  Std.TreeMap.getElem?_map

/-- Unlinking is removing every edge back from each of the targets. -/
theorem getElem?_unlink_eq_foldl : (m.unlink source)[object]? =
    ((m.targets source).foldl (fun (m : Multimap α) other => m.removeAll other source) m)[object]? := by
  rw [getElem?_unlink]
  exact (m.getElem?_foldl_modify object (fun list => by simp) _).symm

omit [Ord α] [Std.TransOrd α] [Std.LawfulEqOrd α] in
theorem renamed_renamed (old new : α) : renamed old new (renamed old new object) = renamed old new object := by
  unfold renamed
  split <;> simp_all

theorem getElem?_rename (old new : α) :
    (m.rename old new)[object]? = m[object]?.map (List.map (renamed old new)) := Std.TreeMap.getElem?_map

theorem getElem?_withoutKey :
    (Std.TreeMap.erase m source : Multimap α)[object]? = if source = object then none else m[object]? := by
  rw [Std.TreeMap.getElem?_erase]
  by_cases hsource : source = object
  · subst hsource
    simp
  · simp [hsource]

omit [DecidableEq α] [Std.LawfulEqOrd α] in
theorem getElem?_removeEmpty : m.removeEmpty[object]? = m[object]?.filter fun list => !list.isEmpty := by
  rw [removeEmpty, Std.TreeMap.getElem?_filter]
  simp

end Lookup

end Multimap
end SchemaShift

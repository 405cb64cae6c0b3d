import SchemaShift.Entries
import Mathlib.Data.List.Sort
import Mathlib.Data.String.Basic

/-! Sorted, stable, canonical.

What a stable sort by a total preorder leaves: the list is in order, and elements
that the order does not tell apart keep their relative order
(`pairwise_stableSort`). Sorting therefore goes past a filter
(`filter_stableSort`) and past a map, and a list in order stays as it is. The
order of names is the one that the entries of a collection are sorted by. -/
namespace SchemaShift

/-- The order tells of any two elements which one may stand first. -/
structure IsPreorder {α : Type} (le : α → α → Bool) : Prop where
  total : ∀ a b, le a b = true ∨ le b a = true
  trans : ∀ a b c, le a b = true → le b c = true → le a c = true

theorem IsPreorder.comap {α β : Type} {le : β → β → Bool} (h : IsPreorder le) (f : α → β) :
    IsPreorder fun a b => le (f a) (f b) :=
  ⟨fun _ _ => h.total _ _, fun _ _ _ => h.trans _ _ _⟩

section Stable
variable {α β : Type} {le : α → α → Bool}

/-- The sort is the library's insertion sort. -/
theorem stableSort_eq_insertionSort (le : α → α → Bool) (l : List α) :
    stableSort le l = l.insertionSort fun a b => le a b = true := by
  have hinsert : ∀ (a : α) (l : List α),
      insertInOrder le a l = l.orderedInsert (fun a b => le a b = true) a := by
    intro a l
    induction l with
    | nil => rfl
    | cons b rest ih => rw [insertInOrder, List.orderedInsert_cons, ih]
  induction l with
  | nil => rfl
  | cons a rest ih => rw [stableSort, List.insertionSort_cons, ih, hinsert]

@[simp] theorem mem_stableSort {a : α} {l : List α} : a ∈ stableSort le l ↔ a ∈ l :=
  (stableSort_perm le l).mem_iff

/-- A list in order stays as it is. -/
theorem stableSort_of_pairwise {l : List α} (h : l.Pairwise fun a b => le a b = true) :
    stableSort le l = l := by
  rw [stableSort_eq_insertionSort]
  exact h.insertionSort_eq

theorem stableSort_map {le' : β → β → Bool} (f : α → β) (l : List α)
    (h : ∀ a b, le' (f a) (f b) = le a b) :
    stableSort le' (l.map f) = (stableSort le l).map f := by
  rw [stableSort_eq_insertionSort, stableSort_eq_insertionSort]
  exact (List.map_insertionSort _ _ f l fun a _ b _ => by rw [h]).symm

/-- Placing one more element keeps the order, and puts it in front of those that
the order does not tell from it. -/
theorem pairwise_insertInOrder (hle : IsPreorder le) {R : α → α → Prop} (a : α) {l : List α}
    (hR : ∀ b ∈ l, R a b)
    (h : l.Pairwise fun a b => le a b = true ∧ (le b a = true → R a b)) :
    (insertInOrder le a l).Pairwise fun a b => le a b = true ∧ (le b a = true → R a b) := by
  induction l with
  | nil => exact List.pairwise_singleton _ _
  | cons b rest ih =>
    obtain ⟨hb, hrest⟩ := List.pairwise_cons.mp h
    rw [insertInOrder]
    by_cases hab : le a b = true
    · rw [if_pos hab]
      refine List.pairwise_cons.mpr ⟨fun c hc => ⟨?_, fun _ => hR c hc⟩, h⟩
      rcases List.mem_cons.mp hc with rfl | hc
      · exact hab
      · exact hle.trans a b c hab (hb c hc).1
    · rw [if_neg hab]
      refine List.pairwise_cons.mpr ⟨fun c hc => ?_, ih (fun c hc => hR c (List.mem_cons_of_mem b hc)) hrest⟩
      rcases List.mem_cons.mp ((insertInOrder_perm le a rest).mem_iff.mp hc) with rfl | hc
      · exact ⟨(hle.total b c).resolve_right hab, fun h => absurd h hab⟩
      · exact hb c hc

/-- The sorted list is in order, and what stood in a relation before still does
where the order does not tell the elements apart. -/
theorem pairwise_stableSort (hle : IsPreorder le) {R : α → α → Prop} {l : List α}
    (hR : l.Pairwise R) :
    (stableSort le l).Pairwise fun a b => le a b = true ∧ (le b a = true → R a b) := by
  induction l with
  | nil => exact List.Pairwise.nil
  | cons a rest ih =>
    obtain ⟨ha, hrest⟩ := List.pairwise_cons.mp hR
    exact pairwise_insertInOrder hle a (fun b hb => ha b (mem_stableSort.mp hb)) (ih hrest)

theorem sorted_stableSort (hle : IsPreorder le) (l : List α) :
    (stableSort le l).Pairwise fun a b => le a b = true :=
  (pairwise_stableSort hle (List.pairwise_of_forall fun _ _ => trivial)).imp fun h => h.1

theorem filter_insertInOrder (hle : IsPreorder le) (p : α → Bool) (a : α) {l : List α}
    (h : l.Pairwise fun a b => le a b = true) :
    (insertInOrder le a l).filter p =
      if p a then insertInOrder le a (l.filter p) else l.filter p := by
  induction l with
  | nil => cases ha : p a <;> simp [insertInOrder, ha]
  | cons b rest ih =>
    obtain ⟨hb, hrest⟩ := List.pairwise_cons.mp h
    rw [insertInOrder]
    by_cases hab : le a b = true
    · rw [if_pos hab, List.filter_cons]
      cases ha : p a
      · rfl
      · -- Every element that the filter leaves stands behind `b`, so `a` comes first again.
        have hfirst : insertInOrder le a ((b :: rest).filter p) = a :: (b :: rest).filter p := by
          cases hf : (b :: rest).filter p with
          | nil => rfl
          | cons c tail =>
            have hc : c ∈ b :: rest := List.mem_of_mem_filter (hf ▸ List.mem_cons_self)
            have hac : le a c = true := by
              rcases List.mem_cons.mp hc with rfl | hc
              · exact hab
              · exact hle.trans a b c hab (hb c hc)
            rw [insertInOrder, if_pos hac]
        rw [if_pos rfl, if_pos rfl, hfirst]
    · rw [if_neg hab, List.filter_cons, List.filter_cons, ih hrest]
      cases ha : p a <;> cases hpb : p b <;> simp [insertInOrder, hab]

/-- Sorting goes past a filter. -/
theorem filter_stableSort (hle : IsPreorder le) (p : α → Bool) (l : List α) :
    (stableSort le l).filter p = stableSort le (l.filter p) := by
  induction l with
  | nil => rfl
  | cons a rest ih =>
    rw [stableSort, filter_insertInOrder hle p a (sorted_stableSort hle rest), ih, List.filter_cons]
    cases p a <;> rfl

/-- Elements that the order does not tell apart are found in their old order. -/
theorem find?_stableSort (hle : IsPreorder le) (p : α → Bool) (l : List α)
    (h : ∀ a b, p a = true → p b = true → le a b = true) :
    (stableSort le l).find? p = l.find? p := by
  have hsorted : (l.filter p).Pairwise fun a b => le a b = true :=
    List.pairwise_of_forall_mem_list fun a ha b hb =>
      h a b (List.mem_filter.mp ha).2 (List.mem_filter.mp hb).2
  rw [← List.head?_filter, ← List.head?_filter, filter_stableSort hle,
    stableSort_of_pairwise hsorted]

end Stable

/-! ### The order of names -/

namespace Entry

theorem nameLe_isPreorder : IsPreorder nameLe where
  total a b := by
    cases a <;> cases b <;> simp only [nameLe, decide_eq_true_eq, true_or, or_true]
    exact le_total _ _
  trans a b c hab hbc := by
    cases a <;> cases b <;> cases c <;> simp_all only [nameLe, decide_eq_true_eq, Bool.false_eq_true]
    exact le_trans hab hbc

theorem nameLe_antisymm {a b : Option String} (hab : nameLe a b = true) (hba : nameLe b a = true) :
    a = b := by
  cases a <;> cases b <;> simp_all only [nameLe, decide_eq_true_eq, Bool.false_eq_true]
  exact congrArg some (le_antisymm hab hba)

theorem nameLe_refl (a : Option String) : nameLe a a = true := by
  cases a <;> simp [nameLe]

end Entry
end SchemaShift

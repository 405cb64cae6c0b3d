/-! Stable sorting by a boolean order.

Entries keep their relative order when the order does not tell them apart, so a
list that is sorted twice, or sorted by rank after it was sorted by name, is the
same list on every run. -/
namespace SchemaShift

variable {α : Type}

/-- Places `a` in front of the first element that it may stand before. -/
def insertInOrder (le : α → α → Bool) (a : α) : List α → List α
  | [] => [a]
  | b :: rest => if le a b then a :: b :: rest else b :: insertInOrder le a rest

/-- Insertion sort: equal elements keep their order. -/
def stableSort (le : α → α → Bool) : List α → List α
  | [] => []
  | a :: rest => insertInOrder le a (stableSort le rest)

@[simp] theorem stableSort_nil (le : α → α → Bool) : stableSort le [] = [] := rfl

theorem length_insertInOrder (le : α → α → Bool) (a : α) (l : List α) :
    (insertInOrder le a l).length = l.length + 1 := by
  induction l with
  | nil => rfl
  | cons b rest ih =>
    unfold insertInOrder
    split
    · rfl
    · simp [ih]

@[simp] theorem length_stableSort (le : α → α → Bool) (l : List α) :
    (stableSort le l).length = l.length := by
  induction l with
  | nil => rfl
  | cons a rest ih => simp [stableSort, length_insertInOrder, ih]

theorem insertInOrder_perm (le : α → α → Bool) (a : α) (l : List α) :
    (insertInOrder le a l).Perm (a :: l) := by
  induction l with
  | nil => exact List.Perm.refl _
  | cons b rest ih =>
    unfold insertInOrder
    split
    · exact List.Perm.refl _
    · exact (List.Perm.cons b ih).trans (List.Perm.swap a b rest)

theorem stableSort_perm (le : α → α → Bool) (l : List α) : (stableSort le l).Perm l := by
  induction l with
  | nil => exact List.Perm.refl _
  | cons a rest ih => exact (insertInOrder_perm le a _).trans (List.Perm.cons a ih)

end SchemaShift
